import RequestLang.Json.Value
import RequestLang.Property.Toml.Scalar
import RequestLang.Text.Search

/-! Tables while they are being filled. -/
namespace RequestLang.Toml

/-- How a table came to be. -/
inductive Origin where
  /-- On the way to another table. -/
  | implied
  /-- By a key with points. -/
  | dotted
  /-- By a heading of its own. -/
  | headed
  deriving DecidableEq, Repr

inductive Node where
  | value (v : Json)
  | table (origin : Origin) (entries : List (String × Node))
  | tables (items : List (List (String × Node)))

abbrev Entries := List (String × Node)

mutual

def Node.json : Node → Json
  | .value v => v
  | .table _ entries => .obj (jsonEntries entries)
  | .tables items => .arr (jsonTables items)

def jsonEntries : Entries → List (String × Json)
  | [] => []
  | (k, n) :: rest => (k, n.json) :: jsonEntries rest

def jsonTables : List Entries → List Json
  | [] => []
  | t :: rest => .obj (jsonEntries t) :: jsonTables rest

end

/-- Puts a value under a key with points. No key is set twice, and a value goes only into a table
that came from such a key, or into the one that is open. -/
def putValue (v : Json) : List String → Entries → Option Entries
  | [], _ => none
  | [k], entries => if (getKey? k entries).isSome then none else some (setKey k (.value v) entries)
  | k :: ks, entries =>
    match getKey? k entries with
    | none => (putValue v ks []).map fun inner => setKey k (.table .dotted inner) entries
    | some (.table .dotted inner) =>
      (putValue v ks inner).map fun inner => setKey k (.table .dotted inner) entries
    | some (.table .implied inner) =>
      if ks.length = 1 then none
      else (putValue v ks inner).map fun inner => setKey k (.table .implied inner) entries
    | some (.tables items) =>
      match items.getLast?, ks with
      | some last, _ :: _ :: _ =>
        (putValue v ks last).map fun last => setKey k (.tables (items.dropLast ++ [last])) entries
      | _, _ => none
    | some _ => none

/-- A heading for a table that is implied already moves it to the end. -/
def openAt (more : Bool) (k : String) (entries : Entries) : Option Entries :=
  match getKey? k entries, more with
  | none, true => some (setKey k (.tables [[]]) entries)
  | some (.tables items), true => some (setKey k (.tables (items ++ [[]])) entries)
  | none, false => some (setKey k (.table .headed []) entries)
  | some (.table .implied inner), false =>
    some (entries.filter (·.1 != k) ++ [(k, .table .headed inner)])
  | _, _ => none

/-- Changes the table that a path of headings leads to. -/
def within (f : Entries → Option Entries) : List String → Entries → Option Entries
  | [], entries => f entries
  | k :: path, entries =>
    match getKey? k entries with
    | none => (within f path []).map fun inner => setKey k (.table .implied inner) entries
    | some (.table origin inner) =>
      (within f path inner).map fun inner => setKey k (.table origin inner) entries
    | some (.tables items) =>
      match items.getLast? with
      | some last =>
        (within f path last).map fun last => setKey k (.tables (items.dropLast ++ [last])) entries
      | none => none
    | some (.value _) => none

/-- Opens the table of a heading; `more` adds a table to a list of them. -/
def openTable (more : Bool) (path : List String) (entries : Entries) : Option Entries := do
  within (openAt more (← path.getLast?)) path.dropLast entries

/-! Configuration text in tables of keys and values. -/

/-- What is left after a comment, which runs to the end of its line. -/
def skipComment? (cs : List Char) : Option (List Char) :=
  match cs with
  | '#' :: rest =>
    let comment := rest.takeWhile (· != '\n')
    if comment.all isPlainChar then some (rest.drop comment.length) else none
  | cs => some cs

/-- Blanks, line ends and comments. The first argument bounds the number of lines. -/
def gaps? : Nat → List Char → Option (List Char)
  | 0, cs => some cs
  | n + 1, cs => do
    match ← skipComment? (skipBlanks cs) with
    | '\n' :: rest => gaps? n rest
    | rest => return rest

def skipGaps? (cs : List Char) : Option (List Char) := gaps? (cs.length + 1) cs

/-- What is left after the end of a line, before which only a comment may stand. -/
def lineEnd? (cs : List Char) : Option (List Char) := do
  match ← skipComment? (skipBlanks cs) with
  | [] => return []
  | '\n' :: rest => return rest
  | _ => none

mutual

def readValue : Nat → List Char → Option (Json × List Char)
  | 0, _ => none
  | n + 1, cs =>
    match cs with
    | '[' :: cs => do
      let (items, cs) ← readArray n cs
      return (.arr items, cs)
    | '{' :: cs => do
      let (entries, cs) ← readInline n [] cs
      return (.obj (jsonEntries entries), cs)
    | c :: _ =>
      if c = '"' ∨ c = '\'' then (string? cs).map fun (t, r) => (.str (String.ofList t), r)
      else scalar? cs
    | [] => none

def readArray : Nat → List Char → Option (List Json × List Char)
  | 0, _ => none
  | n + 1, cs => do
    match ← skipGaps? cs with
    | ']' :: cs => return ([], cs)
    | cs =>
      let (v, cs) ← readValue n cs
      match ← skipGaps? cs with
      | ',' :: cs =>
        let (vs, cs) ← readArray n cs
        return (v :: vs, cs)
      | ']' :: cs => return ([v], cs)
      | _ => none

/-- A table on one line. No comma stands before its end. -/
def readInline : Nat → Entries → List Char → Option (Entries × List Char)
  | 0, _, _ => none
  | n + 1, acc, cs =>
    match skipBlanks cs, acc with
    | '}' :: cs, [] => some (acc, cs)
    | cs, _ => do
      let (ks, cs) ← key? cs
      let (v, cs) ← readValue n (skipBlanks (← mark? '=' cs))
      let acc ← putValue v ks acc
      match skipBlanks cs with
      | ',' :: cs => readInline n acc cs
      | '}' :: cs => return (acc, cs)
      | _ => none

end

/-- A heading after its brackets, with its path and what follows the line. -/
def heading? (ending : List Char) (cs : List Char) : Option (List String × List Char) := do
  let (path, cs) ← key? cs
  if ending.isPrefixOf cs then return (path, ← lineEnd? (cs.drop ending.length)) else none

/-- Reads lines under the heading `here`. -/
def readDocument : Nat → List String → Entries → List Char → Option Entries
  | 0, _, _, _ => none
  | n + 1, here, acc, cs => do
    match ← skipGaps? cs with
    | [] => return acc
    | '[' :: '[' :: cs =>
      let (path, cs) ← heading? [']', ']'] cs
      readDocument n path (← openTable true path acc) cs
    | '[' :: cs =>
      let (path, cs) ← heading? [']'] cs
      readDocument n path (← openTable false path acc) cs
    | cs =>
      let (ks, cs) ← key? cs
      let cs := skipBlanks (← mark? '=' cs)
      let (v, cs) ← readValue (cs.length + 1) cs
      readDocument n here (← within (putValue v ks) here acc) (← lineEnd? cs)

/-- A mark of the byte order may come first, and a carriage return before a line feed. -/
def parse? (text : String) : Option Json :=
  let cs := Text.replaceAll ['\r', '\n'] ['\n'] text.toList
  let cs := if cs.head? = some '\uFEFF' then cs.drop 1 else cs
  (readDocument (cs.length + 1) [] [] cs).map fun entries => .obj (jsonEntries entries)

end RequestLang.Toml

import RequestLang.Arith.Evaluate
import RequestLang.Calendar.Pattern
import RequestLang.Failure
import RequestLang.Json.Value
import RequestLang.Property.Placeholder

/-! Properties in tiers, and the expansion of placeholders by them. -/
namespace RequestLang

/-- What a request file says about a property by itself. -/
inductive Slot where
  | unset
  | value (v : String)
  /-- Two defaults that differ. -/
  | conflict
  deriving DecidableEq, Repr

/-- `declared` tells a variable from defaults found in placeholders. -/
structure Entry where
  slot : Slot
  declared : Bool
  deriving DecidableEq, Repr

/-- What the outside world knows: variables of the process, what a shell command prints unless it
fails, and the time. -/
structure Surroundings where
  environment : String → Option String
  runCommand : String → Option String
  now : Clock

structure Resolver where
  commandLine : List (String × String) := []
  env : List (String × String) := []
  inFile : List (String × Entry) := []
  commands : List (String × String) := []
  commandsEnabled : Bool := false
  lenient : Bool := false
  propertyFile : Option String := none
  failures : List Failure := []
  /-- A remainder has overflowed, which ends the program. What is computed after it is not seen. -/
  overflowed : Bool := false
  surroundings : Surroundings
  draws : Draws

/-- A step that may fail; what it changed before failing stays changed. -/
abbrev Resolve (α : Type) := ExceptT Failure (StateM Resolver) α

def commandsDisabledText : String :=
  "running system command is disabled, enable it by adding @insecure"

namespace Resolver

def addCommandLine (r : Resolver) (key value : String) : Resolver :=
  { r with commandLine := setKey key value r.commandLine }

def addEnv (r : Resolver) (key value : String) : Resolver :=
  { r with env := setKey key value r.env }

def addCommand (r : Resolver) (key command : String) : Resolver :=
  { r with commands := setKey key command r.commands }

def enableCommands (r : Resolver) : Resolver := { r with commandsEnabled := true }

def slotOf (r : Resolver) (key : String) : Slot := ((getKey? key r.inFile).map Entry.slot).getD .unset

/-- Sets the value of a variable. It gives way to a value that is there unless told otherwise. -/
def declare (r : Resolver) (key value : String) (replaces : Bool) : Resolver :=
  if !replaces && r.slotOf key != .unset then r
  else { r with inFile := setKey key ⟨.value value, true⟩ r.inFile }

/-- Every property with a value, where a higher tier hides a lower one. -/
def all (r : Resolver) : List (String × String) :=
  let found := r.inFile.filterMap fun (k, e) =>
    match e.slot with
    | .value v => some (k, v)
    | _ => none
  (r.env ++ r.commandLine).foldl (fun acc (k, v) => setKey k v acc) found

/-- The value of a marker in a template. -/
def markerValue? (r : Resolver) (key : String) : Option String :=
  match getKey? key r.commandLine with
  | some v => some v
  | none =>
    match getKey? key r.env with
    | some v => some v
    | none =>
      match r.slotOf key with
      | .value v => some v
      | _ => none

def fillTemplate (r : Resolver) (template : String) : String :=
  RequestLang.fillTemplate r.markerValue? template

/-- What a system command gives: nothing if it fails, and a notice while commands are not
enabled. -/
def commandValue? (r : Resolver) (key : String) : Option String :=
  (getKey? key r.commands).map fun command =>
    if r.commandsEnabled then Text.trim ((r.surroundings.runCommand command).getD "")
    else commandsDisabledText

/-- A name goes to the command line first, then to the environment of the property file, the
request file, the variables of the process and the system commands. -/
def lookup (r : Resolver) (key : String) : Except Failure (Option String) :=
  match getKey? key r.commandLine with
  | some v => .ok (some v)
  | none =>
    match getKey? key r.env with
    | some v => .ok (some v)
    | none =>
      match r.slotOf key with
      | .value v => .ok (some v)
      | .conflict => .error (.propertyConflict key)
      | .unset =>
        match r.surroundings.environment key with
        | some v => .ok (some v)
        | none => .ok (r.commandValue? key)

def isAvailable (r : Resolver) (key : String) : Bool :=
  Generator.isSpecial key.toList || (getKey? key r.commandLine).isSome ||
    (getKey? key r.env).isSome || r.slotOf key != .unset ||
    (r.surroundings.environment key).isSome || (getKey? key r.commands).isSome

/-- The distinct names of a text that no tier knows, in the order in which they come. -/
def missing (r : Resolver) (text : String) : List String :=
  let keys := (Segment.bodies text.toList).map fun body => (Placeholder.ofBody body).key
  (keys.filter fun k => !k.isEmpty && !r.isAvailable k).foldl
    (fun seen k => if seen.contains k then seen else seen ++ [k]) []

def notFound (r : Resolver) (names : List String) : Failure :=
  .propertyNotFound names (r.propertyFile.getD "not specified")

def draw {α : Type} (r : Resolver) (d : Draw α) : α × Resolver :=
  let (a, draws) := d r.draws
  (a, { r with draws })

/-- Takes an overflow down. Every other fault of arithmetic is for the caller alone. -/
def noteFault (r : Resolver) (f : Arith.Fault) : Resolver :=
  { r with overflowed := r.overflowed || f == .remainderOverflow }

/-- A remainder or a generated value was too large, which ended the program. -/
def ended (r : Resolver) : Bool := r.overflowed || r.draws.used.overflowed

/-- The outcome of a step that ended with `r`, unless the program ended before. -/
def settle {α : Type} (r : Resolver) (outcome : Except Failure α) : Except Failure α :=
  if r.ended then .error .overflow else outcome

/-- A default as it is first met: quotes are taken off, templates are filled and a generator
draws. The flag tells a drawn value. -/
def expandDefault (r : Resolver) (raw : String) : String × Bool × Resolver :=
  let cs := raw.toList
  match Placeholder.unquoted? cs with
  | some inner => (String.ofList inner, false, r)
  | none =>
    let value :=
      match Placeholder.template? cs with
      | some t => r.fillTemplate (String.ofList t)
      | none => raw
    if Generator.isGenerator value.toList then
      let (drawn, r) := r.draw (Generator.generate r.surroundings.now.seconds value.toList)
      (String.ofList drawn, true, r)
    else (value, false, r)

/-- How a default changes what is known. The first one is kept, another one is in conflict with
it unless it was drawn, and a variable stays as it is. -/
def Entry.meet (e : Entry) (value : String) (drawn : Bool) : Entry :=
  if e.declared then e
  else
    match e.slot with
    | .unset => { e with slot := .value value }
    | .value v => if !drawn && v != value then { e with slot := .conflict } else e
    | .conflict => e

def mineBody (r : Resolver) (body : List Char) : Resolver :=
  let p := Placeholder.ofBody body
  match p.fallback with
  | none =>
    match getKey? p.key r.inFile with
    | some _ => r
    | none => { r with inFile := setKey p.key ⟨.unset, false⟩ r.inFile }
  | some raw =>
    let (value, drawn, r) := r.expandDefault raw
    let entry := (getKey? p.key r.inFile).getD ⟨.unset, false⟩
    { r with inFile := setKey p.key (Entry.meet entry value drawn) r.inFile }

/-- Records the defaults of a text from left to right. -/
def mine (r : Resolver) (text : String) : Resolver :=
  ((Segment.bodies text.toList).filter (!·.isEmpty)).foldl mineBody r

end Resolver

namespace Resolve

/-- A result that depends on no property. -/
def ofExcept {α : Type} : Except Failure α → Resolve α
  | .ok a => return a
  | .error f => throw f

/-- Fails, or in lenient mode takes the failure down and goes on with `value`. -/
def failOr {α : Type} (f : Failure) (value : α) : Resolve α := do
  let r ← get
  if r.lenient then
    set { r with failures := r.failures ++ [f] }
    return value
  throw f

/-- The value of a name, which is computed or looked up. -/
def valueOf (key : String) : Resolve (Option String) := do
  let key := Text.trim key
  let r ← get
  let mark := Generator.expressionMark.toList
  if mark.isPrefixOf key.toList then
    let text := String.ofList (key.toList.drop mark.length)
    match Arith.evaluate text with
    | .ok v => return some v
    | .error f =>
      set (r.noteFault f)
      return some text
  if Generator.isSpecial key.toList then
    let (drawn, r) := r.draw (Generator.generate r.surroundings.now.seconds key.toList)
    set r
    return some (String.ofList drawn)
  match r.lookup key with
  | .ok v => return v
  | .error f => throw f

/-- Expands the segments of a text. A hole whose name fails stays as written; the first failure is
handed on. -/
def expandSegments : List Segment → Option Failure → Resolve (List Char × Option Failure)
  | [], failed => return ([], failed)
  | .plain cs :: rest, failed => do
    let (text, failed) ← expandSegments rest failed
    return (cs ++ text, failed)
  | .hole body :: rest, failed => do
    let written := (Segment.hole body).chars
    let key := (Placeholder.ofBody body).key
    let (value, failed) ←
      if key.isEmpty then pure (written, failed)
      else
        tryCatch
          (do
            match ← valueOf key with
            | some v => pure (v.toList, failed)
            | none => pure (written, failed))
          fun f => pure (written, failed.or (some f))
    let (text, failed) ← expandSegments rest failed
    return (value ++ text, failed)

/-- Expands every placeholder of a text on its own. What is put in is not read again. -/
def expand (text : String) : Resolve String := do
  if !Text.holds ['{', '{'] text.toList then return text
  modify (·.mine text)
  let r ← get
  match r.missing text with
  | [] =>
    let (expanded, failed) ← expandSegments (Segment.ofText text.toList) none
    let expanded := String.ofList expanded
    match failed with
    | some f => failOr f expanded
    | none => return expanded
  | names => failOr (r.notFound names) text

/-- Fails if a name of the text is known to no tier. -/
def check (text : String) : Resolve Unit := do
  let r ← get
  match r.missing text with
  | [] => return ()
  | names => throw (r.notFound names)

end Resolve
end RequestLang

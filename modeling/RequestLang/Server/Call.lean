import RequestLang.Json.Printer
import RequestLang.Json.Skip
import RequestLang.Text.Quoted

/-! Calls, and how they are read from lines of JSON. -/
namespace RequestLang.Server

structure Call where
  id : Json
  method : String
  params : List (String × Json)

namespace Call

inductive Cause where
  | json (cause : Json.Cause)
  | wrongKind (found expected : String)
  | repeated (field : String)
  | withoutMethod
  | tooShort
  deriving DecidableEq, Repr

def Cause.message : Cause → String
  | json cause => cause.message
  | wrongKind found expected => "invalid type: " ++ found ++ ", expected " ++ expected
  | repeated field => "duplicate field `" ++ field ++ "`"
  | withoutMethod => "missing field `method`"
  | tooShort => "invalid length 1, expected struct ServerRequest with 3 elements"

abbrev Fault := Json.Located Cause

def ofJson {α : Type} : Except Json.Fault α → Except Fault α
  | .ok a => .ok a
  | .error f => .error ⟨.json f.cause, f.left⟩

/-- A value by its kind, and by what it is if it is short. -/
def described : Json → String
  | .null => "null"
  | .bool b => "boolean `" ++ toString b ++ "`"
  | .number (.int i) => "integer `" ++ toString i ++ "`"
  | .number x => "floating point `" ++ x.text ++ "`"
  | .str s => "string \"" ++ String.ofList (Text.Quoted.encode '"' s.toList) ++ "\""
  | .arr _ => "sequence"
  | .obj _ => "map"

/-- Refuses the value at the head. A list or an object is not read. -/
def refuse {α : Type} (expected : String) (cs : List Char) : Except Fault α :=
  match cs with
  | '[' :: _ => Json.before (.wrongKind (described (.arr [])) expected) cs
  | '{' :: _ => Json.before (.wrongKind (described (.obj [])) expected) cs
  | cs => do
    let (v, rest) ← ofJson (Json.readValue 1 0 cs)
    Json.before (.wrongKind (described v) expected) rest

/-- The nesting that is allowed inside a call. -/
def innerDepth : Nat := Json.maxDepth - 1

def readValue (cs : List Char) : Except Fault (Json × List Char) := do
  let (v, rest) ← ofJson (Json.readValue (2 * cs.length + 2) innerDepth cs)
  return (v.merged, rest)

def readMethod (cs : List Char) : Except Fault (String × List Char) :=
  match Json.skipSpace cs with
  | '"' :: cs => ofJson (Json.readText cs)
  | cs => refuse "a string" cs

def readParams (cs : List Char) : Except Fault (List (String × Json) × List Char) := do
  match Json.skipSpace cs with
  | '{' :: cs =>
    match ← readValue ('{' :: cs) with
    | (.obj members, rest) => return (members, rest)
    | (_, rest) => return ([], rest)
  | cs => refuse "a map" cs

/-- The fields that have been read. -/
structure Draft where
  id : Option Json := none
  method : Option String := none
  params : Option (List (String × Json)) := none

/-- A field that comes again is refused before its value. -/
def once {α : Type} (field : String) (old : Option α) (cs : List Char) : Except Fault (List Char) :=
  if old.isSome then
    match Json.skipSpace cs with
    | '}' :: cs => Json.before (.repeated field) cs
    | cs => Json.before (.repeated field) cs
  else ofJson (Json.readColon cs)

/-- A field after its key. Those that are not known do not matter. -/
def readField (d : Draft) (key : String) (cs : List Char) : Except Fault (Draft × List Char) := do
  match key with
  | "id" =>
    let (id, cs) ← readValue (← once key d.id cs)
    return ({ d with id := some id }, cs)
  | "method" =>
    let (method, cs) ← readMethod (← once key d.method cs)
    return ({ d with method := some method }, cs)
  | "params" =>
    let (params, cs) ← readParams (← once key d.params cs)
    return ({ d with params := some params }, cs)
  | _ => return (d, ← ofJson (do Json.skip (← Json.readColon cs)))

/-- Fields from the first key on, after its opening quote. The first argument bounds their number. -/
def readFields : Nat → Draft → List Char → Except Fault (Draft × List Char)
  | 0, d, cs => .ok (d, cs)
  | n + 1, d, cs => do
    let (key, cs) ← ofJson (Json.readText cs)
    let (d, cs) ← readField d key cs
    let (more, cs) ← ofJson (Json.readObjectGap cs)
    if more then readFields n d cs else return (d, cs)

def readObject (cs : List Char) : Except Fault (Call × List Char) := do
  let (more, cs) ← ofJson (Json.readObjectStart cs)
  let (d, cs) ← if more then readFields (cs.length + 1) {} cs else .ok ({}, cs)
  match d.method with
  | some method => return (⟨d.id.getD .null, method, d.params.getD []⟩, cs)
  | none => Json.before .withoutMethod cs

/-- The end of a list of three. -/
def readListEnd (cs : List Char) : Except Json.Fault (List Char) :=
  match Json.skipSpace cs with
  | [] => Json.before .endInList []
  | ']' :: cs => .ok cs
  | ',' :: cs =>
    match Json.skipSpace cs with
    | ']' :: cs => Json.within .trailingComma (']' :: cs)
    | cs => Json.within .trailing cs
  | cs => Json.within .trailing cs

/-- The fields by position, of which the parameters may be left out. -/
def readList (cs : List Char) : Except Fault (Call × List Char) := do
  let (more, cs) ← ofJson (Json.readListStart cs)
  if !more then Json.before .tooShort cs
  else
    let (id, cs) ← readValue cs
    let (more, cs) ← ofJson (Json.readListGap cs)
    if !more then Json.before .tooShort cs
    else
      let (method, cs) ← readMethod cs
      let (more, cs) ← ofJson (Json.readListGap cs)
      if !more then return (⟨id, method, []⟩, cs)
      else
        let (params, cs) ← readParams cs
        return (⟨id, method, params⟩, ← ofJson (readListEnd cs))

/-- A line is an object or a list. -/
def read (line : String) : Except Fault Call := do
  let (call, rest) ←
    match Json.skipSpace line.toList with
    | '{' :: cs => readObject cs
    | '[' :: cs => readList cs
    | cs => refuse "struct ServerRequest" cs
  ofJson (Json.readEnd rest)
  return call

def Fault.message (line : String) (f : Fault) : String := Json.Located.message Cause.message line f

end Call
end RequestLang.Server

import RequestLang.Property.Generator

/-! Placeholders: pieces of text in double braces, with a name and perhaps a default. -/
namespace RequestLang

/-- A stretch of text between placeholders, or what stands between the braces of one. -/
inductive Segment where
  | plain (cs : List Char)
  | hole (body : List Char)
  deriving DecidableEq, Repr

namespace Segment

def chars : Segment → List Char
  | plain cs => cs
  | hole body => '{' :: '{' :: body ++ ['}', '}']

def body? : Segment → Option (List Char)
  | plain _ => none
  | hole body => some body

def cons (c : Char) : List Segment → List Segment
  | plain cs :: rest => plain (c :: cs) :: rest
  | rest => plain [c] :: rest

/-- Where a hole opens at the head of `cs`, its body and what follows it. -/
def holeAt? : List Char → Option (List Char × List Char)
  | '{' :: '{' :: cs =>
    (Text.through? ['}', '}'] cs).map fun n => (cs.take (n - 2), cs.drop n)
  | _ => none

/-- The first argument is how many characters of the hole last found are still to be passed. -/
def scan : Nat → List Char → List Segment
  | _, [] => []
  | n + 1, _ :: cs => scan n cs
  | 0, c :: cs =>
    match holeAt? (c :: cs) with
    | some (body, _) => hole body :: scan (body.length + 3) cs
    | none => cons c (scan 0 cs)

/-- Holes from left to right, each as short as it can be and none inside another. -/
def ofText (text : List Char) : List Segment := scan 0 text

def bodies (text : List Char) : List (List Char) := (ofText text).filterMap body?

end Segment

/-- A name with the default that stands after its first equals sign. -/
structure Placeholder where
  key : String
  fallback : Option String
  deriving DecidableEq, Repr

namespace Placeholder

/-- Names that are computed have no default. -/
def ofBody (body : List Char) : Placeholder :=
  let trimmed (cs : List Char) := String.ofList (Text.trimChars cs)
  if Generator.isSpecial body then ⟨trimmed body, none⟩
  else
    match Text.splitOnce? '=' body with
    | some (key, value) => ⟨trimmed key, some (trimmed value)⟩
    | none => ⟨trimmed body, none⟩

/-- The text inside quotes, if the same quote stands at both ends. -/
def unquoted? (cs : List Char) : Option (List Char) :=
  match cs with
  | q :: c :: rest =>
    if (q = '"' ∨ q = '\'') ∧ (c :: rest).getLast? = some q then some (c :: rest).dropLast
    else none
  | _ => none

/-- The template text of a default such as `p'…'`. -/
def template? (cs : List Char) : Option (List Char) :=
  match cs with
  | 'p' :: q :: rest =>
    if (q = '"' ∨ q = '\'') ∧ rest.getLast? = some q then some rest.dropLast else none
  | _ => none

end Placeholder

/-- A marker in single braces that holds a name, with the name and what follows. -/
def markerAt? : List Char → Option (List Char × List Char)
  | '{' :: c :: cs =>
    if Text.isNameStart c then
      match cs.dropWhile Text.isNameChar with
      | '}' :: rest => some (c :: cs.takeWhile Text.isNameChar, rest)
      | _ => none
    else none
  | _ => none

/-- Puts values for the markers of a template. A marker without a value stays. -/
def fillFrom (value? : String → Option String) : Nat → List Char → List Char
  | _, [] => []
  | n + 1, _ :: cs => fillFrom value? n cs
  | 0, c :: cs =>
    match markerAt? (c :: cs) with
    | some (name, _) =>
      let text :=
        match value? (String.ofList name) with
        | some v => v.toList
        | none => '{' :: name ++ ['}']
      text ++ fillFrom value? (name.length + 1) cs
    | none => c :: fillFrom value? 0 cs

def fillTemplate (value? : String → Option String) (template : String) : String :=
  String.ofList (fillFrom value? 0 template.toList)

end RequestLang

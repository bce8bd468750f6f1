import RequestLang.Document
import RequestLang.Json.Printer
import RequestLang.Json.Reader
import RequestLang.Property.Resolver

/-! The JSON that a term stands for. -/
namespace RequestLang

/-- The body of a text that is one placeholder and nothing else. -/
def soleHole? (text : List Char) : Option (List Char) :=
  match Segment.ofText text with
  | [.hole body] => some body
  | _ => none

/-- A number if the text is one, and the text itself if it is not. -/
def Json.ofNumeral (text : String) : Json :=
  match Json.Number.parse? text with
  | some n => .number n
  | none => .str text

namespace Resolve

/-- Like `expand`, but a text that is one placeholder gives the JSON that its value writes. -/
def expandJson (text : String) : Resolve Json := do
  let trimmed := Text.trim text
  match soleHole? trimmed.toList with
  | none => return .str (← expand text)
  | some body =>
    let value ← expand trimmed
    if value = trimmed ∧ !Generator.isSpecial body then return .str value
    match Json.parse? value with
    | some v => return v
    | none => return .str value

/-- A name where one can begin: not inside a number, a name or after a point. -/
def nameMayFollow : Option Char → Bool
  | none => true
  | some c => !(Text.isNameChar c || c == '.')

/-- Puts values for the bare names of an expression, and lists the names without one. `skip` is
how many characters of the name last found are still to be passed. -/
def substitute (before : Option Char) (skip : Nat) :
    List Char → Resolve (List Char × List String)
  | [] => return ([], [])
  | c :: cs =>
    match skip with
    | n + 1 => substitute (some c) n cs
    | 0 => do
      if nameMayFollow before && Text.isNameStart c then
        let tail := cs.takeWhile Text.isNameChar
        let name := String.ofList (c :: tail)
        let value ← tryCatch (valueOf name) fun _ => pure none
        let (text, unknown) ← substitute (some c) tail.length cs
        match value with
        | some v => return (v.toList ++ text, unknown)
        | none => return (c :: tail ++ text, name :: unknown)
      else
        let (text, unknown) ← substitute (some c) 0 cs
        return (c :: text, unknown)

def holesOf (names : List String) : String :=
  String.join (names.map fun n => "\x7b\x7b" ++ n ++ "\x7d\x7d")

/-- Computes an expression after putting values for its placeholders and names. -/
def evaluateArithmetic (text : String) : Resolve Json := do
  let expanded ← expand text
  let (substituted, unknown) ← substitute none 0 expanded.toList
  if !unknown.isEmpty then check (holesOf unknown)
  match Arith.evaluate (String.ofList substituted) with
  | .ok v => return .ofNumeral v
  | .error f =>
    modify (·.noteFault f)
    throw (.payloadInvalid ("cannot evaluate `" ++ text ++ "`: " ++ f.message))

def referenceText (text : String) : String :=
  if ['{', '{'].isPrefixOf text.toList then text else "\x7b\x7b" ++ text ++ "\x7d\x7d"

def evaluateKey : JsonKey → Resolve String
  | .literal l => expand l.value
  | .reference text => do return (← expandJson text).plainText

mutual

/-- Strings are expanded, references give the JSON of their values and arithmetic is computed. -/
def evaluate : JsonTerm → Resolve Json
  | .null => return .null
  | .bool b => return .bool b
  | .number text => return .ofNumeral text
  | .literal l => do return .str (← expand l.value)
  | .reference text => expandJson (referenceText text)
  | .arithmetic text => evaluateArithmetic text
  | .array items => do return .arr (← evaluateItems items)
  | .object members => do return .obj (← evaluateMembers [] members)

def evaluateItems : List JsonTerm → Resolve (List Json)
  | [] => return []
  | t :: ts => do
    let v ← evaluate t
    return v :: (← evaluateItems ts)

def evaluateMembers (acc : List (String × Json)) :
    List (JsonKey × JsonTerm) → Resolve (List (String × Json))
  | [] => return acc
  | (k, t) :: ms => do
    let key ← evaluateKey k
    let v ← evaluate t
    evaluateMembers (setKey key v acc) ms

end

end Resolve
end RequestLang

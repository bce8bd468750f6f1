import RequestLang.Calendar.Pattern
import RequestLang.Property.Generator

/-! Functions that a variable may call. -/
namespace RequestLang.Function

/-- Why a call has no value. -/
inductive Fault where
  | refused (reason : String)
  /-- No date can be written by the pattern, which ends the program. -/
  | unwritable
  deriving DecidableEq, Repr

/-- An optional length, which is the only argument. -/
def length? (name : String) : List String → Except Fault (Option Nat)
  | [] => .ok none
  | [n] =>
    match Text.natural? (Text.trimChars n.toList) with
    | some k => .ok (some k)
    | none => .error (.refused ("$" ++ name ++ " expects a length, got `" ++ n ++ "`"))
  | _ => .error (.refused ("$" ++ name ++ " takes at most one argument (length)"))

/-- Letter groups of a date pattern with the fields they stand for, in the order of replacement. -/
def patternFields : List (String × String) :=
  [("yyyy", "%Y"), ("MM", "%m"), ("dd", "%d"), ("HH", "%H"), ("mm", "%M"), ("ss", "%S")]

/-- What percent signs make of a pattern of letter groups. -/
def percentPattern (pattern : String) : List Char :=
  patternFields.foldl (fun cs (old, new) => Text.replaceAll old.toList new.toList cs) pattern.toList

/-- How a date is written unless a call tells. -/
def usualPattern : List Char := "%Y-%m-%dT%H:%M:%S%.3f%z".toList

def date (now : Clock) (pattern : List Char) : Except Fault String :=
  match now.text? pattern with
  | some text => .ok (String.ofList text)
  | none => .error .unwritable

def ofDraw (d : Draw (List Char)) : Draw (Except Fault String) := do
  return .ok (String.ofList (← d))

def withLength (name : String) (args : List String) (g : Generator) (now : Nat) :
    Draw (Except Fault String) :=
  match length? name args with
  | .ok n => ofDraw (g.draw now n)
  | .error e => return .error e

/-- The value of a call. An unknown function gives its name. -/
def call (now : Clock) (name : String) (args : List String) : Draw (Except Fault String) :=
  match name with
  | "randomStr" => withLength name args .randomStr now.seconds
  | "randomInt" => withLength name args .randomInt now.seconds
  | "randomSlug" => withLength name args .slug now.seconds
  | "randomFloat" => ofDraw (Generator.randomFloat.draw now.seconds none)
  | "randomBool" => ofDraw (Generator.randomBool.draw now.seconds none)
  | "guid" | "uuid" => ofDraw (Generator.uuid.draw now.seconds none)
  | "timestamp" => ofDraw (Generator.timestamp.draw now.seconds none)
  | "now" =>
    match args with
    | [] => return date now usualPattern
    | [pattern] => return date now (percentPattern pattern)
    | _ => return .error (.refused "$now takes at most one argument (format)")
  | _ => return .ok name

end RequestLang.Function

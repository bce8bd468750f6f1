import RequestLang.Number.Shortest
import RequestLang.Text.Blank
import RequestLang.Text.Search
import RequestLang.Text.Word

/-! A supply of random numbers: a fixed stream and how much of it is used up. -/
namespace RequestLang

/-- How many numbers are used up. `overflowed` tells that more was asked for than memory can hold,
which ends the program. What is drawn after it is not seen. -/
structure Draws.Used where
  count : Nat
  overflowed : Bool := false

instance (n : Nat) : OfNat Draws.Used n := ⟨⟨n, false⟩⟩

structure Draws where
  stream : Nat → Nat
  used : Draws.Used

/-- Scrambles a word so that neighbours end up far apart. -/
def scramble (n : UInt64) : UInt64 :=
  let a := (n ^^^ (n >>> 30)) * 0xBF58476D1CE4E5B9
  let b := (a ^^^ (a >>> 27)) * 0x94D049BB133111EB
  b ^^^ (b >>> 31)

def Draws.ofSeed (seed : Nat) : Draws :=
  ⟨fun i => (scramble (seed.toUInt64 + (i + 1).toUInt64 * 0x9E3779B97F4A7C15)).toNat, 0⟩

abbrev Draw (α : Type) := StateM Draws α

namespace Draw

def next : Draw Nat := fun d =>
  (d.stream d.used.count, { d with used := { d.used with count := d.used.count + 1 } })

/-- A number below a positive bound. -/
def below (bound : Nat) : Draw Nat := do return (← next) % bound

/-- A member of a list. -/
def oneOf (cs : List Char) : Draw Char := do
  return cs.getD (← below cs.length) (cs.headD ' ')

def times (n : Nat) (c : Draw Char) : Draw (List Char) :=
  match n with
  | 0 => return []
  | n + 1 => do
    let first ← c
    return first :: (← times n c)

/-- No block of memory has as many bytes. -/
def blockEnd : Nat := 0x8000000000000000

/-- Takes a block of memory of so many bytes and goes on, or ends the program. -/
def reserve (bytes : Nat) (c : Draw (List Char)) : Draw (List Char) := fun d =>
  if blockEnd ≤ bytes then ([], { d with used := { d.used with overflowed := true } }) else c d

end Draw

/-! Placeholder names that stand for fresh values. -/

inductive Generator where
  | randomStr | randomInt | randomFloat | randomBool | guid | uuid | timestamp | loremSlug | slug
  deriving DecidableEq, Repr

namespace Generator

/-- In the order in which they are tried. -/
def all : List Generator :=
  [randomStr, randomInt, randomFloat, randomBool, guid, uuid, timestamp, loremSlug, slug]

def name : Generator → String
  | randomStr => "$randomStr"
  | randomInt => "$randomInt"
  | randomFloat => "$randomFloat"
  | randomBool => "$randomBool"
  | guid => "$guid"
  | uuid => "$uuid"
  | timestamp => "$timestamp"
  | loremSlug => "$randomLoremSlug"
  | slug => "$randomSlug"

def expressionMark : String := "$expr:"

/-- Names that are computed rather than looked up. -/
def isSpecial (key : List Char) : Bool :=
  let key := Text.trimChars key
  expressionMark.toList.isPrefixOf key || all.any (·.name.toList.isPrefixOf key)

def letters : List Char := "abcdefghijklmnopqrstuvwxyzABCDEFGHIJKLMNOPQRSTUVWXYZ".toList

def alphanumerics : List Char := letters ++ "0123456789".toList

def lowerAlphanumerics : List Char := "abcdefghijklmnopqrstuvwxyz0123456789".toList

def hexDigits : List Char := "0123456789abcdef".toList

/-- Letters and digits of which the first is a letter; one to ten of them unless told. -/
def drawStr (length : Option Nat) : Draw (List Char) := do
  let length ←
    match length with
    | some n => pure n
    | none => do pure ((← Draw.below 10) + 1)
  Draw.reserve length do
    let first ← Draw.oneOf letters
    return first :: (← Draw.times (length - 1) (Draw.oneOf alphanumerics))

/-- A number of that many digits; without a length any below `2 ^ 31`. -/
def drawInt (length : Option Nat) : Draw (List Char) := do
  match length with
  | none => return Nat.toDigits 10 (← Draw.below 0x80000000)
  | some n =>
    Draw.reserve n do
      let first ← Draw.oneOf "123456789".toList
      return first :: (← Draw.times (n - 1) (Draw.oneOf "0123456789".toList))

/-- A number from zero to one in steps of `2 ^ -53`. -/
def drawFloat : Draw (List Char) := do
  let n ← Draw.below 0x20000000000000
  return (Shortest.plainText (n.toFloat / (0x20000000000000 : Nat).toFloat)).toList

def drawBool : Draw (List Char) := do
  return (if (← Draw.below 2) = 1 then "true" else "false").toList

/-- A random identifier of version four. -/
def drawUuid : Draw (List Char) := do
  let part (n : Nat) : Draw (List Char) := Draw.times n (Draw.oneOf hexDigits)
  let a ← part 8
  let b ← part 4
  let c ← part 3
  let variantDigit ← Draw.oneOf ['8', '9', 'a', 'b']
  let d ← part 3
  let e ← part 12
  return a ++ '-' :: b ++ ['-', '4'] ++ c ++ '-' :: variantDigit :: d ++ '-' :: e

def drawWords : Nat → Draw (List (List Char))
  | 0 => return []
  | n + 1 => do
    let size ← Draw.below 9
    let word ← Draw.times (size + 1) (Draw.oneOf lowerAlphanumerics)
    return word :: (← drawWords n)

/-- What a list takes for each text in it, beside the text itself. -/
def entryBytes : Nat := 24

/-- Words joined by dashes, four unless told. -/
def drawSlug (length : Option Nat) : Draw (List Char) :=
  let words := (length.filter (0 < ·)).getD 4
  Draw.reserve (entryBytes * words) do return List.intercalate ['-'] (← drawWords words)

/-- A fresh value. `now` is the time in seconds. -/
def draw (now : Nat) (length : Option Nat) : Generator → Draw (List Char)
  | randomStr => drawStr length
  | randomInt => drawInt length
  | randomFloat => drawFloat
  | randomBool => drawBool
  | guid | uuid => drawUuid
  | timestamp => return Nat.toDigits 10 now
  | loremSlug | slug => drawSlug length

/-- A generator call in a text: what is before it, its length if it has one, what is after it. -/
structure Call where
  before : List Char
  generator : Generator
  length : Option Nat
  after : List Char

def callAt? (cs : List Char) : Option Call :=
  all.findSome? fun g =>
    let name := g.name.toList
    if name.isPrefixOf cs then
      let rest := cs.drop name.length
      match rest with
      | ':' :: ds =>
        let digits := ds.takeWhile Text.isDecimalDigit
        some ⟨[], g, (Text.natural? digits).filter (0 < ·), ds.dropWhile Text.isDecimalDigit⟩
      | _ => some ⟨[], g, none, rest⟩
    else none

/-- The leftmost call on the first line. -/
def call? : List Char → Option Call
  | [] => none
  | c :: cs =>
    match callAt? (c :: cs) with
    | some call => some call
    | none => if c = '\n' then none else (call? cs).map fun k => { k with before := c :: k.before }

def isGenerator (cs : List Char) : Bool := (call? cs).isSome

/-- Puts a fresh value for the generator call of a text. -/
def generate (now : Nat) (cs : List Char) : Draw (List Char) :=
  match call? cs with
  | none => return cs
  | some k => do return k.before ++ (← k.generator.draw now k.length) ++ k.after

end Generator
end RequestLang

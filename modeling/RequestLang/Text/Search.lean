import RequestLang.Number.Decimal

/-! Finding and replacing pieces of text. -/
namespace RequestLang.Text

/-- How many characters up to the end of the first occurrence of `mark`. -/
def through? (mark : List Char) : List Char → Option Nat
  | [] => if mark.isEmpty then some 0 else none
  | c :: cs => if mark.isPrefixOf (c :: cs) then some mark.length else (through? mark cs).map (· + 1)

/-- Whether `mark` stands somewhere in `cs`. -/
def holds (mark : List Char) (cs : List Char) : Bool := (through? mark cs).isSome

/-- What stands before and after the first occurrence of a character. -/
def splitOnce? (mark : Char) (cs : List Char) : Option (List Char × List Char) :=
  match cs.dropWhile (· != mark) with
  | _ :: after => some (cs.takeWhile (· != mark), after)
  | [] => none

/-- Puts `new` for each occurrence of `old` from left to right. The first argument is how many
characters of an occurrence are still to be passed over. -/
def replaceFrom (old new : List Char) : Nat → List Char → List Char
  | _, [] => []
  | n + 1, _ :: cs => replaceFrom old new n cs
  | 0, c :: cs =>
    if !old.isEmpty && old.isPrefixOf (c :: cs) then new ++ replaceFrom old new (old.length - 1) cs
    else c :: replaceFrom old new 0 cs

def replaceAll (old new : List Char) (cs : List Char) : List Char := replaceFrom old new 0 cs

/-- Digits after an optional plus sign, for a number that fits a word. -/
def natural? (cs : List Char) : Option Nat :=
  let ds :=
    match cs with
    | '+' :: ds => ds
    | ds => ds
  if ds.isEmpty || !ds.all Char.isDigit then none
  else
    let n := ds.foldl (fun n d => 10 * n + (d.toNat - '0'.toNat)) 0
    if n < wordEnd then some n else none

end RequestLang.Text

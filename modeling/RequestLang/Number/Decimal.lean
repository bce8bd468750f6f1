/-! How far whole numbers reach in sixty-four bits. -/
namespace RequestLang

/-- The first number that is too large for a word. -/
def wordEnd : Nat := 0x10000000000000000

/-- The first number that is too large for a word with a sign. -/
def signedEnd : Int := 0x8000000000000000

def fitsSigned (i : Int) : Bool := -signedEnd ≤ i && i < signedEnd

/-! Decimal numerals as text, and the floating-point number nearest to one. -/

/-- A numeral read exactly: `mantissa * 10 ^ exponent`, or one of the names beyond it. -/
inductive Numeral where
  | finite (negative : Bool) (mantissa : Nat) (exponent : Int)
  | infinite (negative : Bool)
  | nan
  deriving DecidableEq, Repr

namespace Numeral

def digitValue (c : Char) : Nat := c.toNat - '0'.toNat

def ofDigits (ds : List Char) : Nat := ds.foldl (fun n d => 10 * n + digitValue d) 0

def lower (cs : List Char) : List Char := cs.map Char.toLower

/-- The value of an exponent part, which is empty or complete. -/
def exponent? : List Char → Option Int
  | [] => some 0
  | e :: cs =>
    if e = 'e' ∨ e = 'E' then
      let (negative, ds) :=
        match cs with
        | '-' :: ds => (true, ds)
        | '+' :: ds => (false, ds)
        | ds => (false, ds)
      if ds.isEmpty || !ds.all Char.isDigit then none
      else some (if negative then -(ofDigits ds : Int) else ofDigits ds)
    else none

/-- Digits with at most one point among or beside them, then an exponent. -/
def unsigned? (negative : Bool) (cs : List Char) : Option Numeral :=
  let name := lower cs
  if name = ['i', 'n', 'f'] ∨ name = ['i', 'n', 'f', 'i', 'n', 'i', 't', 'y'] then some (.infinite negative)
  else if name = ['n', 'a', 'n'] then some .nan
  else
    let whole := cs.takeWhile Char.isDigit
    let rest := cs.dropWhile Char.isDigit
    let (fraction, rest) :=
      match rest with
      | '.' :: ds => (ds.takeWhile Char.isDigit, ds.dropWhile Char.isDigit)
      | _ => ([], rest)
    if whole.isEmpty && fraction.isEmpty then none
    else (exponent? rest).map fun e =>
      .finite negative (ofDigits (whole ++ fraction)) (e - fraction.length)

def read? : List Char → Option Numeral
  | '-' :: cs => unsigned? true cs
  | '+' :: cs => unsigned? false cs
  | cs => unsigned? false cs

def isNumeral (s : String) : Bool := (read? s.toList).isSome

/-- Beyond these exponents every numeral overflows or vanishes. -/
def toFloat : Numeral → Float
  | .nan => 0.0 / 0.0
  | .infinite negative => if negative then -(1.0 / 0.0) else 1.0 / 0.0
  | .finite negative m e =>
    let magnitude : Float :=
      let size : Int := (Nat.toDigits 10 m).length + e
      if m = 0 ∨ size < -330 then 0.0
      else if size > 310 then 1.0 / 0.0
      else Float.ofScientific m (e < 0) e.natAbs
    if negative then -magnitude else magnitude

def float? (s : String) : Option Float := (read? s.toList).map toFloat

end Numeral
end RequestLang

import RequestLang.Number.Decimal

/-! The fewest decimal digits that read back as a given floating-point number. -/
namespace RequestLang.Shortest

/-- A finite number is `mantissa * 2 ^ exponent`, up to its sign. -/
structure Binary where
  mantissa : Nat
  exponent : Int
  deriving DecidableEq, Repr

/-- Fractions have fifty-two bits. -/
def fractionEnd : Nat := 0x10000000000000

def leastExponent : Int := -1074

/-- The parts of the bit pattern of a finite number. -/
def Binary.ofBits (bits : UInt64) : Binary :=
  let n := bits.toNat
  let fraction := n % fractionEnd
  let biased := n / fractionEnd % 2048
  if biased = 0 then ⟨fraction, leastExponent⟩
  else ⟨fraction + fractionEnd, (biased : Int) - 1 + leastExponent⟩

/-- A non-negative ratio. -/
structure Ratio where
  num : Nat
  den : Nat
  deriving DecidableEq, Repr

namespace Ratio

def power (base : Nat) (e : Int) : Ratio :=
  if 0 ≤ e then ⟨Nat.pow base e.toNat, 1⟩ else ⟨1, Nat.pow base (-e).toNat⟩

def scale (n : Nat) (r : Ratio) : Ratio := ⟨n * r.num, r.den⟩

def le (a b : Ratio) : Bool := a.num * b.den ≤ b.num * a.den

def lt (a b : Ratio) : Bool := a.num * b.den < b.num * a.den

/-- How often `unit` goes into a ratio. -/
def floorDiv (a unit : Ratio) : Nat := a.num * unit.den / (a.den * unit.num)

end Ratio

/-- The numbers that round to a given one, with bounds that belong to them or not. -/
structure Interval where
  low : Ratio
  value : Ratio
  high : Ratio
  closed : Bool

namespace Interval

/-- Below a power of two the neighbours lie closer together. -/
def ofBinary (b : Binary) : Interval :=
  let quarter := Ratio.power 2 (b.exponent - 2)
  let belowGap := if b.mantissa = fractionEnd ∧ leastExponent < b.exponent then 1 else 2
  { low := quarter.scale (4 * b.mantissa - belowGap)
    value := quarter.scale (4 * b.mantissa)
    high := quarter.scale (4 * b.mantissa + 2)
    closed := b.mantissa % 2 = 0 }

def holds (i : Interval) (r : Ratio) : Bool :=
  if i.closed then i.low.le r && r.le i.high else i.low.lt r && r.lt i.high

/-- The multiple of `unit` in the interval that lies nearest to its value. Of two equally near
ones the even one is taken. -/
def multiple? (i : Interval) (unit : Ratio) : Option Nat :=
  let below := i.value.floorDiv unit
  let above := below + 1
  match i.holds (unit.scale below) && below != 0, i.holds (unit.scale above) with
  | true, true =>
    let doubled := i.value.scale 2
    let middle := unit.scale (below + above)
    if doubled.lt middle then some below
    else if middle.lt doubled then some above
    else some (if below % 2 = 0 then below else above)
  | true, false => some below
  | false, true => some above
  | false, false => none

end Interval

/-- The number of digits before the point, which is negative or zero for a ratio below one. -/
def leading (r : Ratio) : Int :=
  if r.den ≤ r.num then (Nat.toDigits 10 (r.num / r.den)).length
  else
    let inverse := (Nat.toDigits 10 (r.den / r.num)).length
    let guess : Int := 1 - inverse
    if (Ratio.power 10 guess).le r then guess + 1 else guess

/-- Trailing zeros go into the exponent. -/
def strip : Nat → Nat → Int → Nat × Int
  | 0, m, e => (m, e)
  | n + 1, m, e => if m ≠ 0 ∧ m % 10 = 0 then strip n (m / 10) (e + 1) else (m, e)

def search (i : Interval) (top : Int) : Nat → Nat → Nat × Int
  | 0, _ => (i.value.floorDiv (Ratio.power 10 (top - 17)), top - 17)
  | n + 1, count =>
    let e := top - count
    match i.multiple? (Ratio.power 10 e) with
    | some m => strip 20 m e
    | none => search i top n (count + 1)

/-- The digits of the magnitude of a finite number, as `m * 10 ^ e`. -/
def digits (x : Float) : Nat × Int :=
  let b := Binary.ofBits x.toBits
  if b.mantissa = 0 then (0, 0)
  else
    let i := Interval.ofBinary b
    search i (leading i.value) 17 1

def isNegative (x : Float) : Bool := signedEnd ≤ x.toBits.toNat

/-- All digits before and after the point, without an exponent. -/
def positional (m : Nat) (e : Int) : String :=
  let ds := (Nat.toDigits 10 m)
  if 0 ≤ e then String.ofList (ds ++ List.replicate e.toNat '0')
  else
    let places := (-e).toNat
    let padded := List.replicate (places + 1 - ds.length) '0' ++ ds
    let whole := padded.length - places
    String.ofList (padded.take whole ++ '.' :: padded.drop whole)

/-- The fewest digits that read back, never with an exponent. -/
def plainText (x : Float) : String :=
  if x.isNaN then "NaN"
  else
    let sign := if isNegative x then "-" else ""
    if x.isInf then sign ++ "inf"
    else
      let (m, e) := digits x
      sign ++ positional m e

end RequestLang.Shortest

import RequestLang.Number.Shortest
import RequestLang.Number.Decimal

/-! Numbers of arithmetic: integers of sixty-four bits, and floats where those do not suffice. -/
namespace RequestLang.Arith

inductive Number where
  | int (i : Int)
  | float (x : Float)
  deriving Repr

inductive Fault where
  | empty
  | invalidNumber (text : String)
  | unexpectedCharacter (c : Char)
  | unexpectedToken (token : String)
  | unexpectedEnd
  | missingParenthesis
  | trailingInput
  | divisionByZero
  /-- The one remainder that sixty-four bits cannot hold on the way. -/
  | remainderOverflow
  deriving DecidableEq, Repr

def Fault.message : Fault → String
  | .empty => "empty expression"
  | .invalidNumber text => "invalid number `" ++ text ++ "`"
  | .unexpectedCharacter c => "unexpected character `" ++ String.singleton c ++ "`"
  | .unexpectedToken token => "unexpected token " ++ token
  | .unexpectedEnd => "unexpected end of expression"
  | .missingParenthesis => "missing `)`"
  | .trailingInput => "unexpected trailing input"
  | .divisionByZero => "division by zero"
  | .remainderOverflow => "remainder overflow"

def fit? (i : Int) : Option Int := if fitsSigned i then some i else none

/-- A power that fits, found without computing one that is far too large. -/
def power? (x : Int) (n : Nat) : Option Int :=
  if x = 0 then some (if n = 0 then 1 else 0)
  else if x = 1 then some 1
  else if x = -1 then some (if n % 2 = 0 then 1 else -1)
  else if 64 ≤ n then none
  else fit? (Int.pow x n)

inductive Op where
  | add | sub | mul | div | mod | pow
  deriving DecidableEq, Repr

namespace Number

def toFloat : Number → Float
  | .int i => (Int64.ofInt i).toFloat
  | .float x => x

/-- Negation of the least integer gives itself. -/
def neg : Number → Number
  | .int i => .int (Int.bmod (-i) wordEnd)
  | .float x => .float (-x)

/-- Floats with no fraction keep a zero after the point below `1e16`. -/
def text : Number → String
  | .int i => toString i
  | .float x =>
    if !x.isNaN && !x.isInf && x.floor == x && x.abs < 1e16 then Shortest.plainText x ++ ".0"
    else Shortest.plainText x

def floatApply (op : Op) (x y : Float) : Except Fault Number :=
  match op with
  | .add => .ok (.float (x + y))
  | .sub => .ok (.float (x - y))
  | .mul => .ok (.float (x * y))
  | .div => if y == 0.0 then .error .divisionByZero else .ok (.float (x / y))
  | .mod => if y == 0.0 then .error .divisionByZero else .ok (.float (x - y * (x / y).floor))
  | .pow => .ok (.float (Float.pow x y))

/-- The integer result, where there is one that fits. Division always leaves the integers. -/
def intApply? (op : Op) (x y : Int) : Option Int :=
  match op with
  | .add => fit? (x + y)
  | .sub => fit? (x - y)
  | .mul => fit? (x * y)
  | .div => none
  | .mod => some (Int.fmod x y)
  | .pow => if 0 ≤ y ∧ y < 0x100000000 then power? x y.toNat else none

/-- A remainder takes the sign of its divisor. -/
def apply (op : Op) (a b : Number) : Except Fault Number :=
  match op, a, b with
  | .mod, .int _, .int 0 | .div, _, .int 0 => .error .divisionByZero
  | .mod, .int x, .int y =>
    if x = -signedEnd ∧ y = -1 then .error .remainderOverflow else .ok (.int (Int.fmod x y))
  | op, .int x, .int y =>
    match intApply? op x y with
    | some i => .ok (.int i)
    | none => floatApply op a.toFloat b.toFloat
  | op, a, b => floatApply op a.toFloat b.toFloat

end Number
end RequestLang.Arith

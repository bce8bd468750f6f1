import RequestLang.Arith.Number
import RequestLang.Number.Decimal

/-! Arithmetic as text: signs, sums, products, powers and parentheses. -/
namespace RequestLang.Arith

inductive Symbol where
  | number (n : Number)
  | op (o : Op)
  | opening
  | closing
  deriving Repr

def Op.mark : Op → String
  | .add => "+"
  | .sub => "-"
  | .mul => "*"
  | .div => "/"
  | .mod => "%"
  | .pow => "**"

/-- How a symbol is named where it must not stand. -/
def Symbol.name : Symbol → String
  | .number n => "Num(" ++ n.text ++ ")"
  | .op o => "Op(\"" ++ o.mark ++ "\")"
  | .opening => "LParen"
  | .closing => "RParen"

def isBlank (c : Char) : Bool := c == ' ' || c == '\t' || c == '\n' || c == '\r'

def isNumberChar (c : Char) : Bool := c.isDigit || c == '.'

/-- How far a number goes: digits and points, then an exponent with a sign. -/
def numberLength (cs : List Char) : Nat :=
  let body := (cs.takeWhile isNumberChar).length
  match cs.drop body with
  | e :: rest =>
    if e = 'e' ∨ e = 'E' then
      let sign :=
        match rest with
        | s :: _ => if s = '+' ∨ s = '-' then 1 else 0
        | [] => 0
      body + 1 + sign + ((rest.drop sign).takeWhile Char.isDigit).length
    else body
  | [] => body

/-- Digits alone make an integer while they fit. -/
def number? (cs : List Char) : Option Number :=
  let whole := (cs.all Char.isDigit && !cs.isEmpty) && fitsSigned (Numeral.ofDigits cs)
  if whole then some (.int (Numeral.ofDigits cs))
  else (Numeral.read? cs).map fun n => .float n.toFloat

def symbols : Nat → List Char → Except Fault (List Symbol)
  | 0, _ => .ok []
  | _ + 1, [] => .ok []
  | n + 1, c :: cs =>
    let put (s : Symbol) (rest : List Char) : Except Fault (List Symbol) :=
      (symbols n rest).map (s :: ·)
    match c, cs with
    | '(', cs => put .opening cs
    | ')', cs => put .closing cs
    | '*', '*' :: cs => put (.op .pow) cs
    | '+', cs => put (.op .add) cs
    | '-', cs => put (.op .sub) cs
    | '*', cs => put (.op .mul) cs
    | '/', cs => put (.op .div) cs
    | '%', cs => put (.op .mod) cs
    | c, cs =>
      if isBlank c then symbols n cs
      else if isNumberChar c then
        let k := numberLength (c :: cs)
        let text := (c :: cs).take k
        match number? text with
        | some v => put (.number v) ((c :: cs).drop k)
        | none => .error (.invalidNumber (String.ofList text))
      else .error (.unexpectedCharacter c)

abbrev Reading := Except Fault (Number × List Symbol)

mutual

/-- The first argument bounds the number of steps; six for each symbol are enough. -/
def sum : Nat → List Symbol → Reading
  | 0, _ => .error .unexpectedEnd
  | n + 1, ss => do
    let (left, ss) ← product n ss
    sumRest n left ss

def sumRest : Nat → Number → List Symbol → Reading
  | 0, _, _ => .error .unexpectedEnd
  | n + 1, left, .op o :: ss =>
    if o = .add ∨ o = .sub then do
      let (right, ss) ← product n ss
      sumRest n (← Number.apply o left right) ss
    else .ok (left, .op o :: ss)
  | _ + 1, left, ss => .ok (left, ss)

def product : Nat → List Symbol → Reading
  | 0, _ => .error .unexpectedEnd
  | n + 1, ss => do
    let (left, ss) ← signed n ss
    productRest n left ss

def productRest : Nat → Number → List Symbol → Reading
  | 0, _, _ => .error .unexpectedEnd
  | n + 1, left, .op o :: ss =>
    if o = .mul ∨ o = .div ∨ o = .mod then do
      let (right, ss) ← signed n ss
      productRest n (← Number.apply o left right) ss
    else .ok (left, .op o :: ss)
  | _ + 1, left, ss => .ok (left, ss)

/-- A sign binds less tightly than a power on its right. -/
def signed : Nat → List Symbol → Reading
  | 0, _ => .error .unexpectedEnd
  | n + 1, .op .sub :: ss => do
    let (v, ss) ← signed n ss
    return (v.neg, ss)
  | n + 1, .op .add :: ss => signed n ss
  | n + 1, ss => power n ss

def power : Nat → List Symbol → Reading
  | 0, _ => .error .unexpectedEnd
  | n + 1, ss => do
    let (base, ss) ← atom n ss
    match ss with
    | .op .pow :: ss =>
      let (exponent, ss) ← signed n ss
      return (← Number.apply .pow base exponent, ss)
    | ss => return (base, ss)

def atom : Nat → List Symbol → Reading
  | 0, _ => .error .unexpectedEnd
  | _ + 1, [] => .error .unexpectedEnd
  | _ + 1, .number v :: ss => .ok (v, ss)
  | n + 1, .opening :: ss => do
    let (v, ss) ← sum n ss
    match ss with
    | .closing :: ss => return (v, ss)
    | _ => throw .missingParenthesis
  | _ + 1, s :: _ => .error (.unexpectedToken s.name)

end

def valueOf (text : List Char) : Except Fault Number := do
  let ss ← symbols (text.length + 1) text
  if ss.isEmpty then throw .empty
  let (v, rest) ← sum (6 * ss.length + 6) ss
  if rest.isEmpty then return v else throw .trailingInput

/-- The text of the value of an expression. -/
def evaluate (text : String) : Except Fault String := (valueOf text.toList).map Number.text

end RequestLang.Arith

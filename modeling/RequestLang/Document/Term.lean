import RequestLang.Document
import RequestLang.Number.Decimal
import RequestLang.Text.Blank
import RequestLang.Token.Cursor

/-! Reading JSON terms from tokens. -/
namespace RequestLang.JsonTerm

def isArithmetic (t : Token) : Bool :=
  t.kind == .operator && ["+", "-", "*", "/", "%", "**"].contains t.text

def isOperand (t : Token) : Bool :=
  t.kind == .number || t.kind == .identifier || t.kind == .placeholder

/-- How far arithmetic goes: the number of its tokens, the parentheses left open, and whether an
operand is still wanted. A line end closes it where it could be complete. -/
def arithmeticRun (depth : Nat) (wanting : Bool) : List Token → Nat × Nat × Bool
  | [] => (0, depth, wanting)
  | t :: ts =>
    let take (depth : Nat) (wanting : Bool) : Nat × Nat × Bool :=
      let (n, final) := arithmeticRun depth wanting ts
      (n + 1, final)
    let stop := (0, depth, wanting)
    if t.kind = .whitespace ∨ t.kind = .comment then take depth wanting
    else if t.kind = .newline then if depth = 0 ∧ wanting = false then stop else take depth wanting
    else if t.isPunct "(" then take (depth + 1) true
    else if t.isPunct ")" then if depth = 0 then stop else take (depth - 1) false
    else if isArithmetic t then take depth true
    else if isOperand t then if wanting then take depth false else stop
    else stop

/-- The text of a run of tokens without the gap at its end. -/
def runText (tokens : List Token) : List Char :=
  ((tokens.reverse.dropWhile (·.isIgnorable)).reverse).flatMap (·.text.toList)

/-- A lone negative number is a number. -/
def ofArithmetic (cs : List Char) : JsonTerm :=
  match cs with
  | '-' :: rest =>
    let digits := Text.trimChars rest
    if (Numeral.read? digits).isSome then .number (String.ofList ('-' :: digits))
    else .arithmetic (String.ofList cs)
  | _ => .arithmetic (String.ofList cs)

def readArithmetic (c : Cursor) : Except Fault (JsonTerm × Cursor) :=
  let (n, depth, wanting) := arithmeticRun 0 true c.ahead
  let run := c.ahead.take n
  let after : Cursor := { c with behind := run.reverse ++ c.behind, ahead := c.ahead.drop n }
  if depth ≠ 0 ∨ wanting then
    .error ⟨.incompleteArithmetic, c.offset, max after.lastEnd c.offset⟩
  else .ok (ofArithmetic (runText run), after)

def startsArithmetic (c : Cursor) (t : Token) : Bool :=
  t.isPunct "(" || t.isOp "-" || (isOperand t && (c.nextSignificant?.map isArithmetic).getD false)

/-- The value of a bare word. -/
def ofWord (word : String) : JsonTerm :=
  if word = "true" ∨ word = "True" then .bool true
  else if word = "false" ∨ word = "False" then .bool false
  else if word = "null" ∨ word = "None" then .null
  else .reference word

def keyOf (t : Token) : JsonKey :=
  if t.kind = .placeholder then .reference t.text else .literal t.literal

mutual

/-- The first argument bounds the depth and length of what is read; more than twice the number of
tokens ahead is enough, since a bracket that opens takes two steps. -/
def readWithin : Nat → Cursor → Except Fault (JsonTerm × Cursor)
  | 0, c => .error (c.endFault (.expected "JSON value"))
  | n + 1, c =>
    let c := c.skip
    match c.token? with
    | none => .error (c.endFault (.expected "JSON value"))
    | some t =>
      if startsArithmetic c t then readArithmetic c
      else if t.isPunct "\x7b" then do
        let (members, c) ← readMembers n c.advance
        return (.object members, c)
      else if t.isPunct "[" then do
        let (items, c) ← readItems n c.advance
        return (.array items, c)
      else
        match t.kind with
        | .string | .tripleString => .ok (.literal t.literal, c.advance)
        | .number => .ok (.number t.text, c.advance)
        | .placeholder => .ok (.reference t.text, c.advance)
        | .identifier => .ok (ofWord t.text, c.advance)
        | _ => .error (c.faultHere (.expected "JSON value"))

/-- Members up to the closing brace. -/
def readMembers : Nat → Cursor → Except Fault (List (JsonKey × JsonTerm) × Cursor)
  | 0, c => .error (c.endFault (.expected "object key"))
  | n + 1, c => do
    let c := c.skip
    if c.isPunct "\x7d" then return ([], c.advance)
    let key ← c.expect (fun t => t.isString || t.kind == .placeholder) "object key"
    let c ← c.advance.skip.expectPunct ":" "':'"
    let (value, c) ← readWithin n c
    let c := c.skip
    if c.isPunct "," then
      let (members, c) ← readMembers n c.advance
      return ((keyOf key, value) :: members, c)
    let c ← c.expectPunct "\x7d" "',' or '\x7d'"
    return ([(keyOf key, value)], c)

/-- Items up to the closing bracket. -/
def readItems : Nat → Cursor → Except Fault (List JsonTerm × Cursor)
  | 0, c => .error (c.endFault (.expected "JSON value"))
  | n + 1, c => do
    let c := c.skip
    if c.isPunct "]" then return ([], c.advance)
    let (value, c) ← readWithin n c
    let c := c.skip
    if c.isPunct "," then
      let (items, c) ← readItems n c.advance
      return (value :: items, c)
    let c ← c.expectPunct "]" "',' or ']'"
    return ([value], c)

end

def read (c : Cursor) : Except Fault (JsonTerm × Cursor) := readWithin (2 * c.ahead.length + 2) c

end RequestLang.JsonTerm

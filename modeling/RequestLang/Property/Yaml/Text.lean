import RequestLang.Property.Scalar

/-! Places in indented configuration text, and the white space there. -/
namespace RequestLang.Yaml

/-- What is left of a text, with how far it has been read. Columns count from zero. -/
structure Position where
  rest : List Char
  line : Nat := 0
  column : Nat := 0
  index : Nat := 0
  deriving Repr

def isBlank (c : Char) : Bool := c == ' ' || c == '\t'

def isBreak (c : Char) : Bool := c == '\n' || c == '\u2028' || c == '\u2029'

def isSpace (c : Char) : Bool := isBlank c || isBreak c

/-- Carriage returns and next-line marks end lines as line feeds do. -/
def normalize : List Char → List Char
  | [] => []
  | '\r' :: '\n' :: cs => '\n' :: normalize cs
  | c :: cs => (if c == '\r' || c == '\u0085' then '\n' else c) :: normalize cs

/-- No other control characters are in such a text, and no mark of the byte order inside it. -/
def isAllowed (c : Char) : Bool :=
  c == '\t' || c == '\n' || (0x20 ≤ c.toNat && c.toNat ≤ 0x7E) ||
    (0xA0 ≤ c.toNat && c.toNat ≠ 0xFEFF && c.toNat ≠ 0xFFFE && c.toNat ≠ 0xFFFF)

/-- Whether a text begins with white space or is at its end. -/
def endsWord (cs : List Char) : Bool := (cs.head?.map isSpace).getD true

/-- A mark between documents, which stands at the start of a line. -/
def isDocumentMark (mark : Char) (cs : List Char) : Bool :=
  [mark, mark, mark].isPrefixOf cs && endsWord (cs.drop 3)

namespace Position

def next? (p : Position) : Option Char := p.rest.head?

/-- Passes over characters of which none ends a line. -/
def skip (p : Position) (n : Nat) : Position :=
  { p with rest := p.rest.drop n, column := p.column + n, index := p.index + n }

def skipBreak (p : Position) : Position :=
  { rest := p.rest.drop 1, line := p.line + 1, column := 0, index := p.index + 1 }

/-- Passes over the characters at the start that are of a kind. -/
def skipWhile (p : Position) (kind : Char → Bool) : Position := p.skip (p.rest.takeWhile kind).length

def skipComment (p : Position) : Position :=
  if p.next? = some '#' then p.skipWhile (!isBreak ·) else p

def atDocumentMark (p : Position) : Bool :=
  p.column == 0 && (isDocumentMark '-' p.rest || isDocumentMark '.' p.rest)

/-- The breaks of lines that hold blanks alone, and the place of the next word. The first argument
bounds their number. -/
def breaks : Nat → Position → List Char × Position
  | 0, p => ([], p)
  | n + 1, p =>
    let p := p.skipWhile isBlank
    match p.next? with
    | some c =>
      if isBreak c then
        let (more, p) := breaks n p.skipBreak
        (c :: more, p)
      else ([], p)
    | none => ([], p)

/-- White space: the blanks before the end of the line, the breaks, and the place of the next word. -/
def gap (p : Position) : List Char × List Char × Position :=
  let blanks := p.rest.takeWhile isBlank
  let (found, p) := breaks (p.rest.length + 1) p
  (blanks, found, p)

end Position

/-- One break is a blank. Of more of them the first is dropped. -/
def fold (blanks : List Char) : List Char → List Char
  | [] => blanks
  | ['\n'] => [' ']
  | '\n' :: more => more
  | found => found

/-! Scalars of indented configuration text: plain ones, quoted ones, and blocks of lines. -/

def isFlowMark (c : Char) : Bool := [',', '[', ']', '{', '}'].contains c

/-- The characters of a plain scalar up to white space. A colon before white space ends it, as the
marks of flow collections do inside one. -/
def plainWord (inFlow : Bool) : List Char → Option (List Char)
  | [] => some []
  | c :: cs =>
    if isSpace c then some []
    else if inFlow && c == ':' && cs.head?.any (fun d => d == '?' || isFlowMark d) then none
    else if c == ':' && endsWord cs then some []
    else if inFlow && isFlowMark c then some []
    else (plainWord inFlow cs).map (c :: ·)

/-- A plain scalar with the place after it. `broken` tells that a line has ended behind it. -/
structure Plain where
  text : List Char
  after : Position
  broken : Bool

/-- Whether a tab stands where a line has to be indented by spaces. The first argument is the indent,
the second the column that the white space begins at. -/
def isTabLed (indent : Nat) : Nat → List Char → Bool
  | _, [] => false
  | column, c :: cs =>
    if isBreak c then isTabLed indent 0 cs
    else (c == '\t' && column < indent) || isTabLed indent (column + 1) cs

/-- Reads words after the white space `before`, as long as their lines are indented enough. -/
def readPlain (inFlow : Bool) (indent : Nat) : Nat → List Char → Bool → Position → Option Plain
  | 0, _, _, _ => none
  | n + 1, before, broken, p => do
    if p.atDocumentMark || p.next? == some '#' then return ⟨[], p, broken⟩
    let word ← plainWord inFlow p.rest
    if word.isEmpty then return ⟨[], p, broken⟩
    let after := p.skip word.length
    let text := before ++ word
    if !(after.next?.any isSpace) then return ⟨text, after, false⟩
    let (blanks, found, next) := after.gap
    if isTabLed indent indent (after.rest.take (next.index - after.index)) then none
    if !inFlow && next.column < indent then return ⟨text, next, !found.isEmpty⟩
    let more ← readPlain inFlow indent n (fold blanks found) (!found.isEmpty) next
    return { more with text := text ++ more.text }

/-- The character of an escape, after its backslash. -/
def escape? : List Char → Option (Char × List Char)
  | [] => none
  | c :: cs =>
    match c with
    | 'x' => Scalar.codePoint? 2 cs
    | 'u' => Scalar.codePoint? 4 cs
    | 'U' => Scalar.codePoint? 8 cs
    | '0' => some ('\x00', cs)
    | 'a' => some ('\x07', cs)
    | 'v' => some ('\x0b', cs)
    | 'e' => some ('\x1b', cs)
    | '\t' => some ('\t', cs)
    | ' ' => some (' ', cs)
    | 'N' => some ('\u0085', cs)
    | '_' => some ('\u00a0', cs)
    | 'L' => some ('\u2028', cs)
    | 'P' => some ('\u2029', cs)
    | c => (Json.simpleEscape? c).map (·, cs)

/-- Reads up to the closing quote. A single quote in a scalar in single quotes is doubled. -/
def readQuoted (quote : Char) : Nat → Position → Option (List Char × Position)
  | 0, _ => none
  | n + 1, p =>
    if p.atDocumentMark then none
    else
      match p.rest with
      | [] => none
      | c :: cs =>
        if isSpace c then
          let (blanks, found, p) := p.gap
          (readQuoted quote n p).map fun (text, p) => (fold blanks found ++ text, p)
        else if c = quote then
          if c = '\'' ∧ cs.head? = some '\'' then
            (readQuoted quote n (p.skip 2)).map fun (text, p) => (c :: text, p)
          else some ([], p.skip 1)
        else if c = '\\' ∧ quote = '"' then
          if cs.head?.any isBreak then
            let (found, p) := Position.breaks (cs.length + 1) (p.skip 1).skipBreak
            (readQuoted quote n p).map fun (text, p) => (found ++ text, p)
          else do
            let (d, rest) ← escape? cs
            let (text, p) ← readQuoted quote n (p.skip (p.rest.length - rest.length))
            return (d :: text, p)
        else (readQuoted quote n (p.skip 1)).map fun (text, p) => (c :: text, p)

/-- What becomes of the line ends at the end of a block. -/
inductive Chomping where
  | strip | clip | keep
  deriving DecidableEq, Repr

/-- What stands after the mark of a block: chomping and a depth, in any order. -/
structure BlockHead where
  chomping : Chomping := .clip
  depth : Option Nat := none

def chomping? : List Char → Option Chomping
  | '-' :: _ => some .strip
  | '+' :: _ => some .keep
  | _ => none

/-- A digit other than zero. -/
def depth? : List Char → Option (Option Nat)
  | c :: _ => if c = '0' then none else some (if c.isDigit then some (Numeral.digitValue c) else none)
  | [] => some none

def blockHead? (cs : List Char) : Option (BlockHead × Nat) :=
  match chomping? cs with
  | some chomping => do
    let depth ← depth? (cs.drop 1)
    return (⟨chomping, depth⟩, if depth.isSome then 2 else 1)
  | none => do
    match ← depth? cs with
    | none => return ({}, 0)
    | some depth =>
      let chomping := chomping? (cs.drop 1)
      return (⟨chomping.getD .clip, some depth⟩, if chomping.isSome then 2 else 1)

/-- Empty lines, with the widest indent among them and before the next line. An indent of zero is
not known yet. -/
def blockBreaks (indent : Nat) : Nat → Nat → Position → Option (List Char × Nat × Position)
  | 0, _, _ => none
  | n + 1, widest, p =>
    let spaces := (p.rest.takeWhile (· == ' ')).length
    let p := p.skip (if indent = 0 then spaces else min spaces (indent - p.column))
    let widest := max widest p.column
    match p.next? with
    | some c =>
      if c = '\t' ∧ (indent = 0 ∨ p.column < indent) then none
      else if isBreak c then
        (blockBreaks indent n widest p.skipBreak).map fun (found, w, p) => (c :: found, w, p)
      else some ([], widest, p)
    | none => some ([], widest, p)

/-- The lines of a block at an indent. `before` is the break after the line before, `empty` the breaks
of the empty lines after it, and `led` tells that it began with a blank. -/
def readBlockLines (literal : Bool) (chomping : Chomping) (indent : Nat) :
    Nat → List Char → List Char → Bool → Position → Option (List Char × Position)
  | 0, _, _, _, _ => none
  | n + 1, before, empty, led, p =>
    if p.column = indent ∧ p.next?.isSome then do
      let blank := p.next?.any isBlank
      let start :=
        if !literal && before == ['\n'] && !led && !blank then
          if empty.isEmpty then [' '] else empty
        else before ++ empty
      let line := p.rest.takeWhile (!isBreak ·)
      let p := p.skip line.length
      let before := p.rest.take 1
      let p := if before.isEmpty then p else p.skipBreak
      let (empty, _, p) ← blockBreaks indent (p.rest.length + 1) 0 p
      let (text, p) ← readBlockLines literal chomping indent n before empty blank p
      return (start ++ line ++ text, p)
    else
      match chomping with
      | .strip => some ([], p)
      | .clip => some (before, p)
      | .keep => some (before ++ empty, p)

/-- A block after its mark, inside a collection with an indent. -/
def readBlock (literal : Bool) (outer : Int) (p : Position) : Option (List Char × Position) := do
  let (head, length) ← blockHead? p.rest
  let p := ((p.skip length).skipWhile isBlank).skipComment
  let p ←
    match p.next? with
    | some c => if isBreak c then some p.skipBreak else none
    | none => some p
  let least := (max outer 0).toNat
  let known := (head.depth.map (least + ·)).getD 0
  let (empty, widest, p) ← blockBreaks known (p.rest.length + 1) 0 p
  let indent := if known = 0 then max (max widest (outer + 1).toNat) 1 else known
  readBlockLines literal head.chomping indent (p.rest.length + 1) [] empty false p

end RequestLang.Yaml

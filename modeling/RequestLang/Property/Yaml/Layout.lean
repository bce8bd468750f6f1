import RequestLang.Property.Yaml.Text

/-! Tokens of indented configuration text, in which indents have become starts and ends of blocks. -/
namespace RequestLang.Yaml

inductive Token where
  | directive (name : String)
  | documentStart | documentEnd
  | blockSequence | blockMapping | blockEnd
  | flowSequence | flowSequenceEnd | flowMapping | flowMappingEnd | flowEntry
  | entry | key | value
  | alias (name : String)
  | anchor (name : String)
  | tag (text : String)
  | scalar (text : String) (plain : Bool)
  deriving DecidableEq, Repr

/-- A node that turns out to be a key if a colon follows it on its line. -/
structure Candidate where
  /-- How many tokens stand before it. -/
  tokens : Nat
  /-- The indent asks for a key here. -/
  required : Bool
  line : Nat
  column : Nat
  index : Nat

structure Layout where
  position : Position
  tokens : List Token := []
  /-- The indent of the block that is open, below zero for none. -/
  indent : Int := -1
  outer : List Int := []
  keyAllowed : Bool := true
  /-- The candidate of the block, or of the flow collection that is innermost. -/
  candidate : Option Candidate := none
  /-- Those of the collections around it. -/
  around : List (Option Candidate) := []

namespace Layout

def inFlow (l : Layout) : Bool := !l.around.isEmpty

def emit (t : Token) (l : Layout) : Layout := { l with tokens := l.tokens ++ [t] }

def insert (n : Nat) (t : Token) (l : Layout) : Layout :=
  { l with tokens := l.tokens.take n ++ t :: l.tokens.drop n }

def skip (n : Nat) (l : Layout) : Layout := { l with position := l.position.skip n }

/-- Opens a block if a column is beyond the indent. -/
def roll (column : Nat) (place : Nat) (t : Token) (l : Layout) : Layout :=
  if !l.inFlow ∧ l.indent < column then
    { l.insert place t with indent := column, outer := l.indent :: l.outer }
  else l

/-- Ends the blocks whose indents are beyond a column. -/
def unroll (column : Int) (l : Layout) : Layout :=
  if l.inFlow then l
  else
    let rec go (indent : Int) : List Int → List Token → Layout
      | [], ts => { l with indent, outer := [], tokens := l.tokens ++ ts }
      | o :: os, ts =>
        if column < indent then go o os (.blockEnd :: ts)
        else { l with indent, outer := o :: os, tokens := l.tokens ++ ts }
    go l.indent l.outer []

/-- Gives up the candidate, unless a key has to stand there. -/
def dropCandidate (l : Layout) : Option Layout :=
  if l.candidate.any (·.required) then none else some { l with candidate := none }

/-- A key stands on one line and is not too long. -/
def isStale (p : Position) (c : Candidate) : Bool := c.line < p.line || c.index + 1024 < p.index

def dropStale (l : Layout) : Option Layout := do
  let fresh (c : Option Candidate) : Option (Option Candidate) :=
    match c with
    | some k => if isStale l.position k then (if k.required then none else some none) else some c
    | none => some none
  return { l with candidate := ← fresh l.candidate, around := ← l.around.mapM fresh }

/-- A node begins here, which may be a key. -/
def saveCandidate (l : Layout) : Option Layout := do
  if !l.keyAllowed then return l
  let p := l.position
  let l ← l.dropCandidate
  return { l with candidate := some ⟨l.tokens.length, !l.inFlow && l.indent == p.column, p.line, p.column, p.index⟩ }

/-- Goes on to the next token. Tabs do not indent a line. -/
def toNextToken : Nat → Layout → Layout
  | 0, l => l
  | n + 1, l =>
    let p := l.position.skipWhile fun c => c == ' ' || (c == '\t' && (l.inFlow || !l.keyAllowed))
    let p := p.skipComment
    if p.next?.any isBreak then
      toNextToken n { l with position := p.skipBreak, keyAllowed := l.keyAllowed || !l.inFlow }
    else { l with position := p }

def directive (l : Layout) : Option Layout := do
  let l ← (l.unroll (-1)).dropCandidate
  let line := l.position.rest.takeWhile (!isBreak ·)
  let l := { l with keyAllowed := false }
  return (l.emit (.directive (String.ofList line))).skip line.length

def documentMark (t : Token) (l : Layout) : Option Layout := do
  let l ← (l.unroll (-1)).dropCandidate
  return ({ l with keyAllowed := false }.emit t).skip 3

def flowStart (t : Token) (l : Layout) : Option Layout := do
  let l ← l.saveCandidate
  return ({ l with around := l.candidate :: l.around, candidate := none, keyAllowed := true }.emit t).skip 1

def flowEnd (t : Token) (l : Layout) : Option Layout := do
  let l ← l.dropCandidate
  return ({ l with candidate := l.around.head?.join, around := l.around.drop 1, keyAllowed := false }.emit t).skip 1

def flowEntry (l : Layout) : Option Layout := do
  let l ← l.dropCandidate
  return ({ l with keyAllowed := true }.emit .flowEntry).skip 1

/-- Opens a block at this column, if something of it may stand here. -/
def open? (t : Token) (l : Layout) : Option Layout :=
  if l.inFlow then some l
  else if l.keyAllowed then some (l.roll l.position.column l.tokens.length t)
  else none

def blockEntry (l : Layout) : Option Layout := do
  let l ← (← l.open? .blockSequence).dropCandidate
  return ({ l with keyAllowed := true }.emit .entry).skip 1

def explicitKey (l : Layout) : Option Layout := do
  let l ← (← l.open? .blockMapping).dropCandidate
  return ({ l with keyAllowed := !l.inFlow }.emit .key).skip 1

def colon (l : Layout) : Option Layout := do
  match l.candidate with
  | some c =>
    let l := (l.insert c.tokens .key).roll c.column c.tokens .blockMapping
    return ({ l with candidate := none, keyAllowed := false }.emit .value).skip 1
  | none =>
    let l ← l.open? .blockMapping
    return ({ l with keyAllowed := !l.inFlow }.emit .value).skip 1

def isNameChar (c : Char) : Bool := c.isAlphanum || c == '_' || c == '-'

/-- An anchor or an alias after its mark. -/
def named (t : String → Token) (l : Layout) : Option Layout := do
  let l ← l.saveCandidate
  let name := (l.position.rest.drop 1).takeWhile isNameChar
  let rest := l.position.rest.drop (1 + name.length)
  let ends := endsWord rest || rest.head?.any fun c => ['?', ':', ',', ']', '}', '%', '@'].contains c || c.toNat == 96
  if name.isEmpty || !ends then none
  return ({ l with keyAllowed := false }.emit (t (String.ofList name))).skip (1 + name.length)

def isTagChar (c : Char) : Bool := c.isAlphanum || "_-;/?:@&=+$.%!~*'()".toList.contains c

def tag (l : Layout) : Option Layout := do
  let l ← l.saveCandidate
  let cs := l.position.rest
  let text ←
    if cs.drop 1 |>.head?.any (· == '<') then
      let inner := cs.takeWhile fun c => c != '>' && !isSpace c
      if (cs.drop inner.length).head? = some '>' then some (inner ++ ['>']) else none
    else some (cs.takeWhile isTagChar)
  let rest := cs.drop text.length
  if !(endsWord rest || (l.inFlow && rest.head? == some ',')) then none
  return ({ l with keyAllowed := false }.emit (.tag (String.ofList text))).skip text.length

def block (literal : Bool) (l : Layout) : Option Layout := do
  let l ← l.dropCandidate
  let (text, position) ← readBlock literal l.indent (l.position.skip 1)
  return { l with keyAllowed := true, position }.emit (.scalar (String.ofList text) false)

def quoted (quote : Char) (l : Layout) : Option Layout := do
  let l ← l.saveCandidate
  let p := l.position.skip 1
  let (text, position) ← readQuoted quote (p.rest.length + 1) p
  return { l with keyAllowed := false, position }.emit (.scalar (String.ofList text) false)

def plain (l : Layout) : Option Layout := do
  let l ← l.saveCandidate
  let p := l.position
  let found ← readPlain l.inFlow (l.indent + 1).toNat (p.rest.length + 1) [] false p
  return { l with keyAllowed := found.broken, position := found.after }.emit
    (.scalar (String.ofList found.text) true)

/-- Marks that no plain scalar begins with. -/
def isMark (c : Char) : Bool := "-?:,[]{}#&*!|>'\"%@".toList.contains c || c.toNat == 96

/-- The next token, which begins with `c`. -/
def next (l : Layout) (c : Char) (cs : List Char) : Option Layout :=
  let p := l.position
  let lone := endsWord cs
  if p.column = 0 ∧ c = '%' then l.directive
  else if p.column = 0 ∧ isDocumentMark '-' p.rest then l.documentMark .documentStart
  else if p.column = 0 ∧ isDocumentMark '.' p.rest then l.documentMark .documentEnd
  else
    match c with
    | '[' => l.flowStart .flowSequence
    | '{' => l.flowStart .flowMapping
    | ']' => l.flowEnd .flowSequenceEnd
    | '}' => l.flowEnd .flowMappingEnd
    | ',' => l.flowEntry
    | '*' => l.named .alias
    | '&' => l.named .anchor
    | '!' => l.tag
    | '"' | '\'' => l.quoted c
    | _ =>
      if c = '-' ∧ lone then l.blockEntry
      else if c = '?' ∧ (l.inFlow ∨ lone) then l.explicitKey
      else if c = ':' ∧ (l.inFlow ∨ lone) then l.colon
      else if (c = '|' ∨ c = '>') ∧ !l.inFlow then l.block (c == '|')
      else if !isMark c || (c == '-' && !cs.head?.any isBlank) || (!l.inFlow && (c == '?' || c == ':')) then
        l.plain
      else none

def read : Nat → Layout → Option (List Token)
  | 0, _ => none
  | n + 1, l => do
    let l := toNextToken (l.position.rest.length + 1) l
    let l := (← l.dropStale).unroll l.position.column
    match l.position.rest with
    | [] => return (← ({ l with position := l.position.skipBreak }.unroll (-1)).dropCandidate).tokens
    | c :: cs => read n (← l.next c cs)

/-- The tokens of a text, which a mark of the byte order may begin. -/
def tokens? (text : List Char) : Option (List Token) :=
  let cs := normalize text
  let cs := if cs.head? = some '\uFEFF' then cs.drop 1 else cs
  if cs.all isAllowed then read (cs.length + 1) { position := { rest := cs } } else none

end Layout
end RequestLang.Yaml

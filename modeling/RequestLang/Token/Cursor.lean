import RequestLang.SyntaxError

/-! A place between the tokens of a text, with the tokens on both sides of it. -/
namespace RequestLang

/-- `behind` lists the tokens already read, nearest first. -/
structure Cursor where
  behind : List Token
  ahead : List Token
  size : Nat
  deriving Repr

namespace Cursor

def ofTokens (text : String) (tokens : List Token) : Cursor :=
  ⟨[], tokens, Text.byteSize text.toList⟩

def token? (c : Cursor) : Option Token := c.ahead.head?

/-- The token after the current one. -/
def next? (c : Cursor) : Option Token := c.ahead.tail.head?

def nextSignificant? (c : Cursor) : Option Token := c.ahead.tail.find? (!·.isIgnorable)

def atEnd (c : Cursor) : Bool := c.ahead.isEmpty

def advance (c : Cursor) : Cursor :=
  match c.ahead with
  | [] => c
  | t :: ts => { c with behind := t :: c.behind, ahead := ts }

def skipWhile (p : Token → Bool) (c : Cursor) : Cursor :=
  let skipped := c.ahead.takeWhile p
  { c with behind := skipped.reverse ++ c.behind, ahead := c.ahead.dropWhile p }

def skip (c : Cursor) : Cursor := c.skipWhile (·.isIgnorable)

/-- Blanks and block comments, which leave the line where it is. -/
def skipInline (c : Cursor) : Cursor :=
  c.skipWhile fun t => t.kind == .whitespace || t.isBlockComment

/-- Where the last significant token behind the cursor ends. -/
def lastEnd (c : Cursor) : Nat :=
  match c.behind.find? (!·.isIgnorable) with
  | some t => t.stop
  | none => 0

/-- Where the current token starts, which is the end of the text when there is none. -/
def offset (c : Cursor) : Nat := (c.token?.map Token.start).getD c.size

def isPunct (c : Cursor) (s : String) : Bool := (c.token?.map (·.isPunct s)).getD false

def isKeyword (c : Cursor) (s : String) : Bool := (c.token?.map (·.isKeyword s)).getD false

def fault (cause : SyntaxCause) (span : Span) : Fault := ⟨cause, span.start, span.stop⟩

def endFault (c : Cursor) (cause : SyntaxCause) : Fault := ⟨cause, c.size, c.size⟩

/-- The first line end of the gap before the cursor. -/
def gapNewline? (c : Cursor) : Option Token :=
  ((c.behind.takeWhile (·.isIgnorable)).filter (·.kind == .newline)).getLast?

/-- A fault at the current token points at the end of the line on which the gap before it began,
since what is missing is missing there. -/
def faultHere (c : Cursor) (cause : SyntaxCause) : Fault :=
  match c.token? with
  | none => ⟨cause, c.lastEnd, c.lastEnd⟩
  | some t => fault cause ((c.gapNewline?.getD t).span)

/-- The current token if it fits. -/
def expect (c : Cursor) (p : Token → Bool) (what : String) : Except Fault Token :=
  match c.token? with
  | some t => if p t then .ok t else .error (c.faultHere (.expected what))
  | none => .error (c.faultHere (.expected what))

/-- Steps over a punctuation mark that has to stand here. -/
def expectPunct (c : Cursor) (mark : String) (what : String) : Except Fault Cursor := do
  let _ ← c.expect (·.isPunct mark) what
  return c.advance

def commentText (t : Token) : List Char :=
  let body :=
    match t.text.toList with
    | '/' :: '/' :: cs => cs
    | '#' :: cs => cs
    | cs => cs
  match body with
  | ' ' :: cs => cs
  | cs => cs

/-- Walks back over line comments. `fresh` says that a line has ended since the last of them. -/
def commentsBack (fresh : Bool) : List Token → List (List Char)
  | [] => []
  | t :: ts =>
    match t.kind with
    | .whitespace => commentsBack fresh ts
    | .newline => if fresh then [] else commentsBack true ts
    | .comment =>
      if t.text.startsWith "#!" || t.isBlockComment then [] else commentText t :: commentsBack false ts
    | _ => []

/-- The line comments directly above the cursor. A blank line, a block comment and an interpreter
line end them. -/
def leadingComments? (c : Cursor) : Option String :=
  match (commentsBack false c.behind).reverse with
  | [] => none
  | lines => some (String.ofList (List.intercalate ['\n'] lines))

end Cursor
end RequestLang

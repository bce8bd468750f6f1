import RequestLang.Text.Place

/-! Tokens of a request file. -/
namespace RequestLang

inductive TokenKind where
  | keyword | identifier | tag | number | string | tripleString | placeholder | script
  | operator | punctuation | whitespace | newline | comment
  deriving DecidableEq, Repr

/-- A half-open range of byte offsets. -/
structure Span where
  start : Nat
  stop : Nat
  deriving DecidableEq, Repr

structure Token where
  kind : TokenKind
  text : String
  start : Nat
  deriving DecidableEq, Repr

namespace Token

def stop (t : Token) : Nat := t.start + Text.byteSize t.text.toList

def span (t : Token) : Span := ⟨t.start, t.stop⟩

def isOp (t : Token) (s : String) : Bool := t.kind == .operator && t.text == s

def isPunct (t : Token) (s : String) : Bool := t.kind == .punctuation && t.text == s

def isKeyword (t : Token) (s : String) : Bool := t.kind == .keyword && t.text == s

def isString (t : Token) : Bool := t.kind == .string || t.kind == .tripleString

/-- Blanks, line ends and comments separate tokens and mean nothing themselves. -/
def isIgnorable (t : Token) : Bool :=
  t.kind == .whitespace || t.kind == .newline || t.kind == .comment

def isBlockComment (t : Token) : Bool := t.kind == .comment && t.text.startsWith "/*"

end Token
end RequestLang

import RequestLang.Path
import RequestLang.Token

/-! Syntax errors: their causes, where they point and how they read. -/
namespace RequestLang

inductive SyntaxCause where
  | unclosedScript
  | unclosedString
  | unexpected (token : String)
  | expected (what : String)
  | unknownMethod (word : String)
  | unknownTag (word : String)
  | namedTwice
  | declaredTwice (clause : String)
  | incompleteArithmetic
  | missingArgument (call argument : String)
  deriving DecidableEq, Repr

def SyntaxCause.message : SyntaxCause → String
  | .unclosedScript => "Unclosed script block, expected '%\x7d'"
  | .unclosedString => "Unclosed string literal"
  | .unexpected token => "Unexpected token '" ++ token ++ "'"
  | .expected what => "Expected " ++ what
  | .unknownMethod word => "Unknown http method '" ++ word ++ "'"
  | .unknownTag word => "Unknown annotation '" ++ word ++ "'"
  | .namedTwice => "Request is named twice"
  | .declaredTwice clause => clause ++ " is declared twice"
  | .incompleteArithmetic => "Incomplete arithmetic expression"
  | .missingArgument call argument => call ++ ": missing argument `" ++ argument ++ "`"

/-- A cause with the bytes it concerns. -/
structure Fault where
  cause : SyntaxCause
  start : Nat
  stop : Nat
  deriving DecidableEq, Repr

def Fault.span (f : Fault) : Span := ⟨f.start, f.stop⟩

structure SyntaxError where
  cause : SyntaxCause
  span : Span
  place : Text.Place
  file : Option String
  deriving DecidableEq, Repr

namespace SyntaxError

/-- The place of an error is the place of the first byte it concerns. -/
def ofFault (text : String) (file : Option String) (f : Fault) : SyntaxError :=
  ⟨f.cause, f.span, Text.placeOf text f.start, file⟩

def message (workingDir : String) (e : SyntaxError) : String :=
  let where_ :=
    match e.file with
    | some path => "http file: `" ++ Path.shown workingDir path ++ "` http syntax"
    | none => "http syntax"
  s!"{where_} at line {e.place.line}, column {e.place.column}: {e.cause.message}"

def hint (e : SyntaxError) : String :=
  s!"at byte {e.span.start}..{e.span.stop} (line {e.place.line}, column {e.place.column})"

end SyntaxError
end RequestLang

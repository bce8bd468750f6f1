import RequestLang.SyntaxError
import RequestLang.Text.Search
import RequestLang.Text.Word

/-! Cutting a text into tokens: at each boundary the first class that fits wins. -/
namespace RequestLang.Lexer

def run (p : Char → Bool) (cs : List Char) : Nat := (cs.takeWhile p).length

/-- How many characters up to the quote that closes a string of one line. A backslash takes the
character after it along, which may be anything but a line feed. -/
def closing? (quote : Char) : List Char → Option Nat
  | [] => none
  | ['\\'] => none
  | '\\' :: c :: cs => if c = '\n' then none else (closing? quote cs).map (· + 2)
  | c :: cs => if c = quote then some 1 else if c = '\n' then none else (closing? quote cs).map (· + 1)

def isTagChar (c : Char) : Bool := Text.isNameChar c || c == '.' || c == '-'

/-- Digits, then a fraction and an exponent if each is complete. -/
def numberLength (cs : List Char) : Nat :=
  let whole := run Char.isDigit cs
  let afterWhole := cs.drop whole
  let fraction :=
    match afterWhole with
    | '.' :: ds => let n := run Char.isDigit ds; if n = 0 then 0 else n + 1
    | _ => 0
  let exponent :=
    match afterWhole.drop fraction with
    | e :: ds =>
      if e = 'e' ∨ e = 'E' then
        match ds with
        | s :: ds' =>
          if s = '+' ∨ s = '-' then
            let n := run Char.isDigit ds'; if n = 0 then 0 else n + 2
          else
            let n := run Char.isDigit ds; if n = 0 then 0 else n + 1
        | [] => 0
      else 0
    | [] => 0
  whole + fraction + exponent

def keywords : List (List Char) := [['i', 'm', 'p', 'o', 'r', 't'], ['v', 'a', 'r']]

/-- A keyword ends where no word character follows. -/
def keywordLength? (cs : List Char) : Option Nat :=
  keywords.findSome? fun w =>
    if w.isPrefixOf cs then
      match cs.drop w.length with
      | c :: _ => if Text.isWord c then none else some w.length
      | [] => some w.length
    else none

def operators : List (List Char) :=
  [['*', '*'], ['>', '>'], ['+'], ['-'], ['*'], ['/'], ['%'], ['='], ['<'], ['>'], ['?']]

def fenced? (opening closing : List Char) (cs : List Char) : Option Nat :=
  if opening.isPrefixOf cs then
    (Text.through? closing (cs.drop opening.length)).map (· + opening.length)
  else none

def quoted? (quote : Char) : List Char → Option Nat
  | c :: cs => if c = quote then (closing? quote cs).map (· + 1) else none
  | [] => none

def newline? : List Char → Option Nat
  | '\r' :: '\n' :: _ => some 2
  | c :: _ => if c = '\r' ∨ c = '\n' then some 1 else none
  | [] => none

def headed? (first rest : Char → Bool) : List Char → Option Nat
  | c :: cs => if first c then some (run rest cs + 1) else none
  | [] => none

def isGap (c : Char) : Bool := c == ' ' || c == '\t'

def lineComment? (opening : List Char) (cs : List Char) : Option Nat :=
  if opening.isPrefixOf cs then some (run (· != '\n') cs) else none

def identifier? : List Char → Option Nat
  | '$' :: cs => (headed? Text.isNameStart Text.isNameChar cs).map (· + 1)
  | cs => headed? Text.isNameStart Text.isNameChar cs

def tag? : List Char → Option Nat
  | '@' :: cs => (headed? Text.isNameStart isTagChar cs).map (· + 1)
  | _ => none

/-- The classes in the order in which they are tried, each with the length of its lexeme. -/
def classes : List (TokenKind × (List Char → Option Nat)) := [
  (.newline, newline?),
  (.whitespace, headed? isGap isGap),
  (.comment, lineComment? ['/', '/']),
  (.comment, lineComment? ['#']),
  (.comment, fenced? ['/', '*'] ['*', '/']),
  (.script, fenced? ['{', '%'] ['%', '}']),
  (.placeholder, fenced? ['{', '{'] ['}', '}']),
  (.tripleString, fenced? ['"', '"', '"'] ['"', '"', '"']),
  (.tripleString, fenced? ['\'', '\'', '\''] ['\'', '\'', '\'']),
  (.string, quoted? '"'),
  (.string, quoted? '\''),
  (.tag, tag?),
  (.keyword, keywordLength?),
  (.number, fun cs => if (cs.head?.map Char.isDigit).getD false then some (numberLength cs) else none),
  (.identifier, identifier?),
  (.operator, fun cs => (operators.find? (·.isPrefixOf cs)).map List.length),
  (.punctuation, headed? (['{', '}', '(', ')', '[', ']', ';', ',', '.', ':'].contains ·) fun _ => false)]

def lexeme? (cs : List Char) : Option (TokenKind × Nat) :=
  classes.findSome? fun (kind, length?) => (length? cs).map (kind, ·)

/-- A script block needs its end somewhere in the rest of the text. -/
def scan (offset : Nat) : List Char → Except Fault (List Token)
  | [] => .ok []
  | c :: cs =>
    if ['{', '%'].isPrefixOf (c :: cs) && !Text.holds ['%', '}'] (c :: cs) then
      .error ⟨.unclosedScript, offset, offset + 2⟩
    else
      match lexeme? (c :: cs) with
      | some (kind, n) =>
        let text := c :: cs.take (n - 1)
        (scan (offset + Text.byteSize text) (cs.drop (n - 1))).map
          (⟨kind, String.ofList text, offset⟩ :: ·)
      | none =>
        if c = '"' ∨ c = '\'' then .error ⟨.unclosedString, offset, offset + 1⟩
        else (scan (offset + c.utf8Size) cs).map (⟨.punctuation, String.singleton c, offset⟩ :: ·)
termination_by cs => cs.length
decreasing_by all_goals simp only [List.length_drop, List.length_cons]; omega

def tokenize (text : String) : Except Fault (List Token) := scan 0 text.toList

end RequestLang.Lexer

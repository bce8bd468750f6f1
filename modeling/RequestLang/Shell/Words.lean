/-! Words of a shell command line: quoting a text as one word, and splitting a line into words. -/
namespace RequestLang.Shell

/-- Characters that mean something to a shell. -/
def isSpecial (c : Char) : Bool :=
  ['\n', ' ', '\t', '\'', '|', '&', ';', '<', '>', '(', ')', '$', Char.ofNat 96, '\\', '"', '*', '?', '[',
    '#', '~', '=', '%'].contains c

/-- A quote inside single quotes is written outside them. -/
def quotedChars (cs : List Char) : List Char :=
  if cs.isEmpty then ['\'', '\'']
  else if cs.any isSpecial then
    '\'' :: cs.flatMap (fun c => if c = '\'' then ['\'', '\\', '\'', '\''] else [c]) ++ ['\'']
  else cs

/-- A text as one word. A text without special characters stands as it is. -/
def quote (s : String) : String := String.ofList (quotedChars s.toList)

inductive Piece where
  | word (cs : List Char)
  /-- What ends a command: a semicolon, a line end, or a pair that makes the next one depend on it. -/
  | separator (mark : List Char)
  deriving DecidableEq, Repr

inductive Mode where
  | plain | single | double
  deriving DecidableEq, Repr

def flush (word : Option (List Char)) (rest : List Piece) : List Piece :=
  match word with
  | some cs => .word cs :: rest
  | none => rest

def extend (word : Option (List Char)) (c : Char) : Option (List Char) := some (word.getD [] ++ [c])

/-- `word` holds what has been read of the current word. An open quote is an error. -/
def lex : Mode → Option (List Char) → List Char → Option (List Piece)
  | .plain, word, [] => some (flush word [])
  | _, _, [] => none
  | .single, word, c :: cs =>
    if c = '\'' then lex .plain word cs else lex .single (extend word c) cs
  | .double, word, '\\' :: c :: cs =>
    if c = '"' ∨ c = '\\' ∨ c = '$' ∨ c.toNat = 96 then lex .double (extend word c) cs
    else if c = '\n' then lex .double word cs
    else lex .double (extend (extend word '\\') c) cs
  | .double, word, c :: cs =>
    if c = '"' then lex .plain word cs else lex .double (extend word c) cs
  | .plain, word, '\\' :: c :: cs =>
    if c = '\n' then lex .plain word cs else lex .plain (extend word c) cs
  | .plain, word, '&' :: '&' :: cs => (lex .plain none cs).map fun ps => flush word (.separator ['&', '&'] :: ps)
  | .plain, word, '|' :: '|' :: cs => (lex .plain none cs).map fun ps => flush word (.separator ['|', '|'] :: ps)
  | .plain, word, c :: cs =>
    if c = '\'' then lex .single (some (word.getD [])) cs
    else if c = '"' then lex .double (some (word.getD [])) cs
    else if c = ' ' ∨ c = '\t' then (lex .plain none cs).map (flush word)
    else if c = ';' ∨ c = '\n' then (lex .plain none cs).map fun ps => flush word (.separator [';'] :: ps)
    else lex .plain (extend word c) cs

/-- The words of a line that is one command. -/
def words? (line : List Char) : Option (List (List Char)) := do
  let pieces ← lex .plain none line
  pieces.mapM fun p =>
    match p with
    | .word cs => some cs
    | .separator _ => none

/-! Command lines that leave a shell nothing to do but to split them: one command, with no expansion,
pattern, redirection or comment in it. -/

/-- Characters that a shell acts on unless they are quoted. The last three mean something at the
beginning of a word or in an assignment only, but are not left to that. -/
def isActive (c : Char) : Bool :=
  ['|', '&', ';', '<', '>', '(', ')', '$', Char.ofNat 96, '"', '\n', '*', '?', '[', '%', '#', '~', '='].contains c

/-- Blanks part words, single quotes take all between them, and a backslash takes the next character or
leads over the end of a line. `quoted` tells that a quote is open, and `word` holds what has been read of the
current word. A line with an active character that is not quoted, or with an open end, is not read. -/
def splitFrom : (quoted : Bool) → Option (List Char) → List Char → Option (List (List Char))
  | false, word, [] => some word.toList
  | true, _, [] => none
  | true, word, c :: cs =>
    if c = '\'' then splitFrom false word cs else splitFrom true (extend word c) cs
  | false, word, '\\' :: c :: cs =>
    if c = '\n' then splitFrom false word cs else splitFrom false (extend word c) cs
  | false, word, c :: cs =>
    if c = '\'' then splitFrom true (some (word.getD [])) cs
    else if c = ' ' ∨ c = '\t' then (splitFrom false none cs).map (word.toList ++ ·)
    else if c = '\\' ∨ isActive c then none
    else splitFrom false (extend word c) cs

def split? (line : List Char) : Option (List (List Char)) := splitFrom false none line

end RequestLang.Shell

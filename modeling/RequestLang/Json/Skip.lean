import RequestLang.Json.Reader

/-! Passing over JSON values that do not matter. They may nest without a bound, and neither the size of
a number nor the halves of a pair are looked at. -/
namespace RequestLang.Json

def skipDigits (cs : List Char) : Except Fault (List Char) :=
  if (cs.takeWhile Char.isDigit).isEmpty then within .badNumber cs
  else .ok (cs.dropWhile Char.isDigit)

def skipExponent (cs : List Char) : Except Fault (List Char) :=
  match cs with
  | '+' :: cs | '-' :: cs => skipDigits cs
  | cs => skipDigits cs

def isExponentMark (c : Char) : Bool := c == 'e' || c == 'E'

/-- A number after its sign. -/
def skipNumber (cs : List Char) : Except Fault (List Char) := do
  let rest ← skipDigits cs
  if cs.head? = some '0' ∧ rest.length + 1 < cs.length then within .badNumber (cs.drop 1)
  else
    let rest ←
      match rest with
      | '.' :: rest => skipDigits rest
      | rest => .ok rest
    match rest with
    | c :: after => if isExponentMark c then skipExponent after else .ok rest
    | [] => .ok []

def skipEscape : List Char → Except Fault (List Char)
  | [] => before .endInString []
  | 'u' :: cs => (readHex4 cs).map Prod.snd
  | e :: cs => if (simpleEscape? e).isSome then .ok cs else within .badEscape (e :: cs)

/-- Passes over a string after its opening quote. The first argument bounds its length. -/
def skipString : Nat → List Char → Except Fault (List Char)
  | 0, cs => before .endInString cs
  | _ + 1, [] => before .endInString []
  | n + 1, c :: cs =>
    if c = '"' then .ok cs
    else if c.toNat < 32 then before .controlCharacter (c :: cs)
    else if c = '\\' then do skipString n (← skipEscape cs)
    else skipString n cs

def skipText (cs : List Char) : Except Fault (List Char) := skipString (cs.length + 1) cs

/-- Passes over a key and its colon. -/
def skipKey (cs : List Char) : Except Fault (List Char) :=
  match skipSpace cs with
  | [] => before .endInObject []
  | '"' :: cs => do readColon (← skipText cs)
  | cs => within .noKey cs

mutual

def skipValue : Nat → List Char → Except Fault (List Char)
  | 0, cs => before .endInValue cs
  | n + 1, cs =>
    match skipSpace cs with
    | [] => before .endInValue []
    | '"' :: cs => skipText cs
    | 't' :: cs => readWord ['r', 'u', 'e'] cs
    | 'f' :: cs => readWord ['a', 'l', 's', 'e'] cs
    | 'n' :: cs => readWord ['u', 'l', 'l'] cs
    | '-' :: cs => skipNumber cs
    | '[' :: cs =>
      match skipSpace cs with
      | [] => before .endInList []
      | ']' :: cs => .ok cs
      | cs => skipItems n cs
    | '{' :: cs =>
      match skipSpace cs with
      | [] => before .endInObject []
      | '}' :: cs => .ok cs
      | cs => skipMembers n cs
    | c :: cs => if c.isDigit then skipNumber (c :: cs) else within .noValue (c :: cs)

def skipItems : Nat → List Char → Except Fault (List Char)
  | 0, cs => before .endInList cs
  | n + 1, cs => do
    match skipSpace (← skipValue n cs) with
    | [] => before .endInList []
    | ',' :: cs => skipItems n cs
    | ']' :: cs => .ok cs
    | cs => within .noListEnd cs

def skipMembers : Nat → List Char → Except Fault (List Char)
  | 0, cs => before .endInObject cs
  | n + 1, cs => do
    match skipSpace (← skipValue n (← skipKey cs)) with
    | [] => before .endInObject []
    | ',' :: cs => skipMembers n cs
    | '}' :: cs => .ok cs
    | cs => within .noObjectEnd cs

end

/-- What is left after a value. -/
def skip (cs : List Char) : Except Fault (List Char) := skipValue (2 * cs.length + 2) cs

/-! Records: objects of which only the members under some keys matter. -/

section
variable (value : Nat → String → List Char → Except Fault (Option Json × List Char))

/-- The members from the first key on, after its opening quote, as far as `value` finds anything under their keys. The
first argument bounds the work. -/
def readMembersBy : Nat → List Char → Except Fault (List (String × Json) × List Char)
  | 0, cs => before .endInObject cs
  | n + 1, cs => do
    let (key, cs) ← readText cs
    let (found, cs) ← value n key (← readColon cs)
    let (more, cs) ← readObjectGap cs
    let (ms, cs) ← if more then readMembersBy n cs else .ok ([], cs)
    return ((found.map (key, ·)).toList ++ ms, cs)

/-- An object after its brace. -/
def readObjectBy (n : Nat) (cs : List Char) : Except Fault (Json × List Char) := do
  let (more, cs) ← readObjectStart cs
  let (members, cs) ← if more then readMembersBy value n cs else .ok ([], cs)
  return (.obj members, cs)

end

def readSome (read : Nat → List Char → Except Fault (Json × List Char)) (n : Nat) (cs : List Char) :
    Except Fault (Option Json × List Char) := do
  let (v, cs) ← read n cs
  return (some v, cs)

/-- The value of a member that matters. Every other one is passed over. -/
def readKnown (known : List String) (n : Nat) (key : String) (cs : List Char) :
    Except Fault (Option Json × List Char) := do
  if key ∈ known then readSome (readValue · maxDepth) n cs
  else return (none, ← skip cs)

/-- A record, which may be a list of its fields by position. -/
def readRecord (known : List String) (n : Nat) (cs : List Char) : Except Fault (Json × List Char) :=
  match skipSpace cs with
  | '{' :: cs => readObjectBy (readKnown known) n cs
  | cs => readValue n maxDepth cs

/-- An object with records under whatever keys. -/
def readRecords (known : List String) (n : Nat) (cs : List Char) : Except Fault (Json × List Char) :=
  match skipSpace cs with
  | '{' :: cs => readObjectBy (fun n _ => readSome (readRecord known) n) n cs
  | cs => within .noValue cs

/-- A text that is one thing, with blanks around it at most. -/
def readWhole (read : Nat → List Char → Except Fault (Json × List Char)) (s : String) : Except Fault Json := do
  let cs := s.toList
  let (v, rest) ← read (2 * cs.length + 2) cs
  readEnd rest
  return v

end RequestLang.Json

/-! Places in a text: line endings, byte sizes, lines and columns. -/
namespace RequestLang.Text

/-- A carriage return, with the line feed after it if there is one, ends a line as a line feed. -/
def normalizeChars : List Char → List Char
  | [] => []
  | '\r' :: '\n' :: cs => '\n' :: normalizeChars cs
  | c :: cs => (if c = '\r' then '\n' else c) :: normalizeChars cs

def normalizeLineEndings (s : String) : String := String.ofList (normalizeChars s.toList)

/-- The number of bytes that the characters take in UTF-8. -/
def byteSize : List Char → Nat
  | [] => 0
  | c :: cs => c.utf8Size + byteSize cs

@[simp] theorem byteSize_nil : byteSize [] = 0 := rfl

@[simp] theorem byteSize_cons (c : Char) (cs : List Char) :
    byteSize (c :: cs) = c.utf8Size + byteSize cs := rfl

@[simp] theorem byteSize_append (cs ds : List Char) :
    byteSize (cs ++ ds) = byteSize cs + byteSize ds := by
  induction cs with
  | nil => simp
  | cons c cs ih => simp [ih, Nat.add_assoc]

/-- The characters that lie within the first `n` bytes. -/
def takeBytes : Nat → List Char → List Char
  | _, [] => []
  | n, c :: cs => if c.utf8Size ≤ n then c :: takeBytes (n - c.utf8Size) cs else []

/-- What is left after the first `n` bytes. -/
def dropBytes : Nat → List Char → List Char
  | _, [] => []
  | n, c :: cs => if c.utf8Size ≤ n then dropBytes (n - c.utf8Size) cs else c :: cs

/-- The text between two byte offsets. -/
def slice (cs : List Char) (start stop : Nat) : List Char :=
  takeBytes (stop - start) (dropBytes start cs)

structure Place where
  line : Nat
  column : Nat
  deriving DecidableEq, Repr

/-- Both numbers count from one; a column counts characters. -/
def Place.start : Place := ⟨1, 1⟩

def Place.after (p : Place) (c : Char) : Place :=
  if c = '\n' then ⟨p.line + 1, 1⟩ else ⟨p.line, p.column + 1⟩

/-- The place reached after reading `cs` from the start of a text. -/
def Place.reached (cs : List Char) : Place := cs.foldl Place.after Place.start

def placeOf (text : String) (offset : Nat) : Place := Place.reached (takeBytes offset text.toList)

/-- A carriage return right before a line feed is left out. -/
def dropReturns : List Char → List Char
  | [] => []
  | '\r' :: '\n' :: cs => '\n' :: dropReturns cs
  | c :: cs => c :: dropReturns cs

def splitLinesAux : List Char → List Char → List (List Char)
  | [], [] => []
  | [], acc => [acc.reverse]
  | '\n' :: cs, acc => acc.reverse :: splitLinesAux cs []
  | c :: cs, acc => splitLinesAux cs (c :: acc)

/-- A line ends at a line feed, which is not part of it, nor is a carriage return before it. -/
def splitLines (cs : List Char) : List (List Char) := splitLinesAux (dropReturns cs) []

end RequestLang.Text

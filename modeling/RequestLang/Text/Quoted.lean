/-! Text inside quotes: its escapes, their reading and their writing. -/
namespace RequestLang.Text.Quoted

/-- The characters that stand for another one after a backslash. -/
def unescape? : Char → Option Char
  | 'n' => some '\n'
  | 't' => some '\t'
  | 'r' => some '\r'
  | '"' => some '"'
  | '\'' => some '\''
  | '\\' => some '\\'
  | _ => none

/-- A backslash before any other character stands for itself. -/
def decode : List Char → List Char
  | '\\' :: c :: cs =>
    match unescape? c with
    | some d => d :: decode cs
    | none => '\\' :: c :: decode cs
  | c :: cs => c :: decode cs
  | [] => []

def escape (quote : Char) (c : Char) : List Char :=
  if c = '\\' then ['\\', '\\']
  else if c = '\n' then ['\\', 'n']
  else if c = '\r' then ['\\', 'r']
  else if c = '\t' then ['\\', 't']
  else if c = quote then ['\\', quote]
  else [c]

def encode (quote : Char) (cs : List Char) : List Char := cs.flatMap (escape quote)

theorem decode_escape_append {q : Char} (hq : q = '"' ∨ q = '\'') (c : Char) (rest : List Char) :
    decode (escape q c ++ rest) = c :: decode rest := by
  unfold escape
  split
  · subst c; simp [decode, unescape?]
  split
  · subst c; simp [decode, unescape?]
  split
  · subst c; simp [decode, unescape?]
  split
  · subst c; simp [decode, unescape?]
  split
  · subst c; rcases hq with rfl | rfl <;> simp [decode, unescape?]
  · rename_i hb _ _ _ _
    simp [decode, hb]

theorem decode_encode {q : Char} (hq : q = '"' ∨ q = '\'') (cs : List Char) :
    decode (encode q cs) = cs := by
  induction cs with
  | nil => rfl
  | cons c cs ih =>
    simp only [encode, List.flatMap_cons]
    rw [decode_escape_append hq]
    exact congrArg (c :: ·) ih

/-- The text between the quotes of a literal of `n` quote characters on each side. -/
def inner (n : Nat) (cs : List Char) : List Char := (cs.drop n).take (cs.length - 2 * n)

end RequestLang.Text.Quoted

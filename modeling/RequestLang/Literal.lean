import RequestLang.Text.Quoted
import RequestLang.Text.Search
import RequestLang.Token

/-! String literals in their three quotings. -/
namespace RequestLang

inductive Quote where
  | double | single | triple
  deriving DecidableEq, Repr

/-- A string without its quotes and with its escapes resolved. -/
structure Literal where
  value : String
  quote : Quote
  deriving DecidableEq, Repr

/-- The literal that a string token writes. A triple-quoted text is taken as it stands. -/
def Token.literal (t : Token) : Literal :=
  let cs := t.text.toList
  if t.kind = .tripleString ∧ 6 ≤ cs.length then
    ⟨String.ofList (Text.Quoted.inner 3 cs), .triple⟩
  else
    ⟨String.ofList (Text.Quoted.decode (Text.Quoted.inner 1 cs)),
      if cs.head? = some '\'' then .single else .double⟩

def Literal.double (value : String) : Literal := ⟨value, .double⟩

/-- Double quotes, unless the text holds them; then single quotes, and where the text holds
those too they are escaped. -/
def quoteChars (cs : List Char) : List Char :=
  if cs.contains '"' then '\'' :: Text.Quoted.encode '\'' cs ++ ['\'']
  else '"' :: Text.Quoted.encode '"' cs ++ ['"']

def quoteText (s : String) : String := String.ofList (quoteChars s.toList)

/-- A triple quote can close a text that neither holds it nor ends in one of its characters. -/
def canFence (quote : Char) (cs : List Char) : Bool :=
  !Text.holds [quote, quote, quote] cs && cs.getLast? != some quote

/-- A triple-quoted literal stays one if a triple quote can close it. -/
def Literal.writtenChars (l : Literal) : List Char :=
  let cs := l.value.toList
  if l.quote = .triple ∧ canFence '"' cs then ['"', '"', '"'] ++ cs ++ ['"', '"', '"']
  else if l.quote = .triple ∧ canFence '\'' cs then ['\'', '\'', '\''] ++ cs ++ ['\'', '\'', '\'']
  else quoteChars cs

def Literal.written (l : Literal) : String := String.ofList l.writtenChars

end RequestLang

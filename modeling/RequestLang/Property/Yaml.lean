import RequestLang.Property.Yaml.Node

/-! Indented configuration text as values. -/
namespace RequestLang.Yaml

def isNullWord (s : String) : Bool := ["", "~", "null", "Null", "NULL"].contains s

def bool? (s : String) : Option Bool :=
  if ["true", "True", "TRUE"].contains s then some true
  else if ["false", "False", "FALSE"].contains s then some false
  else none

/-- Integers beyond a hundred and twenty-eight bits are read as other numbers. -/
def isWide (i : Int) : Bool :=
  -(wordEnd * signedEnd) ≤ i && i < (wordEnd * wordEnd : Int)

/-- A whole number, unless a zero leads other digits. One that fits no word is refused. -/
def integer? (cs : List Char) : Option (Option Json) :=
  match Scalar.integer? cs with
  | none => none
  | some i =>
    if -signedEnd ≤ i ∧ i < wordEnd then some (some (.int i)) else if isWide i then some none else none

def withoutSign : List Char → List Char
  | '-' :: cs | '+' :: cs => cs
  | cs => cs

/-- Digits that a zero leads are text. -/
def isPadded (cs : List Char) : Bool :=
  match withoutSign cs with
  | '0' :: d :: ds => (d :: ds).all Char.isDigit
  | _ => false

def infinities : List String := [".inf", ".Inf", ".INF", "+.inf", "+.Inf", "+.INF", "-.inf", "-.Inf", "-.INF"]

def nans : List String := [".nan", ".NaN", ".NAN"]

/-- Values beyond all numbers are null. -/
def float? (cs : List Char) : Option Json :=
  if (infinities ++ nans).contains (String.ofList cs) then some .null
  else do
    let x := (← Numeral.read? cs).toFloat
    if x.isNaN ∨ x.isInf then none else some (.number (.float x))

/-- A plain scalar by its look. -/
def plain? (text : String) : Option Json :=
  if isNullWord text then some .null
  else
    match bool? text, integer? text.toList with
    | some b, _ => some (.bool b)
    | none, some i => i
    | none, none =>
      some ((if isPadded text.toList then none else float? text.toList).getD (.str text))

/-- A tag of the standard asks for its kind of value. Tags of one's own are refused. -/
def scalar? (tag : Option String) (text : String) (plain : Bool) : Option Json :=
  match tag with
  | none => if plain then plain? text else some (.str text)
  | some t =>
    if t = standardTag ++ "bool" then (bool? text).map .bool
    else if t = standardTag ++ "int" then (integer? text.toList).join
    else if t = standardTag ++ "float" then float? text.toList
    else if t = standardTag ++ "null" then if isNullWord text && text != "" then some .null else none
    else if t.startsWith "!" then none
    else some (.str text)

def isForeign (tag : Option String) : Bool := tag.any (·.startsWith "!")

def key? : Node → Option String
  | .scalar _ text _ => some text
  | _ => none

mutual

/-- The first argument is the nesting that is still allowed. A later member of a key wins. -/
def Node.json? : Nat → Node → Option Json
  | _, .scalar tag text plain => scalar? tag text plain
  | depth, .sequence tag items =>
    if depth = 0 ∨ isForeign tag then none else (jsonItems? (depth - 1) items).map .arr
  | depth, .mapping tag members =>
    if depth = 0 ∨ isForeign tag then none else (jsonMembers? (depth - 1) [] members).map .obj

def jsonItems? : Nat → List Node → Option (List Json)
  | _, [] => some []
  | depth, n :: ns => do return (← n.json? depth) :: (← jsonItems? depth ns)

def jsonMembers? : Nat → List (String × Json) → List (Node × Node) → Option (List (String × Json))
  | _, acc, [] => some acc
  | depth, acc, (k, v) :: ms => do jsonMembers? depth (setKey (← key? k) (← v.json? depth) acc) ms

end

def maxDepth : Nat := 128

def parse? (text : String) : Option Json := do
  (← Node.ofTokens? (← Layout.tokens? text.toList)).json? maxDepth

end RequestLang.Yaml

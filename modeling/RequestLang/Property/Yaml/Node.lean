import RequestLang.Number.Decimal
import RequestLang.Property.Scalar
import RequestLang.Property.Yaml.Layout

/-! Nodes of indented configuration text, read from its tokens. -/
namespace RequestLang.Yaml

inductive Node where
  | scalar (tag : Option String) (text : String) (plain : Bool)
  | sequence (tag : Option String) (items : List Node)
  | mapping (tag : Option String) (members : List (Node × Node))
  deriving Repr

/-- A node that is not written. -/
def Node.empty : Node := .scalar none "" true

/-- The tokens that are left, and the nodes of anchors, of which the last one of a name counts. -/
structure Remaining where
  tokens : List Token
  anchors : List (String × Node) := []

abbrev Reader (α : Type) := StateT Remaining Option α

namespace Reader

def peek : Reader (Option Token) := do return (← get).tokens.head?

def advance : Reader Unit := modify fun r => { r with tokens := r.tokens.drop 1 }

/-- Takes a token if it is the next one. -/
def accept (t : Token) : Reader Bool := do
  if (← peek) = some t then
    advance
    return true
  else return false

def nextIs (ts : List Token) : Reader Bool := do return (← peek).any ts.contains

end Reader

def standardTag : String := "tag:yaml.org,2002:"

/-- A tag in full. A single mark says nothing. -/
def fullTag? (text : String) : Option (Option String) :=
  match text.toList with
  | ['!'] => some none
  | '!' :: '<' :: uri => some (some (String.ofList uri.dropLast))
  | '!' :: '!' :: [] => none
  | '!' :: '!' :: name => some (some (standardTag ++ String.ofList name))
  | cs => if (cs.drop 1).contains '!' then none else some (some text)

/-- A tag and an anchor before a node, in any order. -/
structure Properties where
  tag : Option String := none
  anchor : Option String := none
  given : Bool := false

open Reader

def readTag : Reader (Option String × Bool) := do
  match ← peek with
  | some (.tag t) =>
    advance
    return (← fullTag? t, true)
  | _ => return (none, false)

def readAnchor : Reader (Option String) := do
  match ← peek with
  | some (.anchor a) =>
    advance
    return some a
  | _ => return none

def readProperties : Reader Properties := do
  match ← readAnchor with
  | some a => return ⟨(← readTag).1, some a, true⟩
  | none =>
    let (tag, given) ← readTag
    if given then return ⟨tag, ← readAnchor, true⟩ else return {}

/-- A key, a value or the end of a collection, where a node that is not written is empty. -/
def isEnding (t : Token) : Bool :=
  [.key, .value, .blockEnd, .flowEntry, .flowSequenceEnd, .flowMappingEnd, .documentStart,
    .documentEnd].contains t

/-- A comma stands before every entry of a flow collection but the first. -/
def readComma (first : Bool) : Reader Unit := do
  if !first then
    if !(← accept .flowEntry) then failure

mutual

/-- Reads a node. `block` tells that blocks may stand here, `dashes` that a sequence may stand here
at the indent of its mapping. -/
def readNode : Nat → Bool → Bool → Reader Node
  | 0, _, _ => failure
  | n + 1, block, dashes => do
    if let some (.alias name) ← peek then
      advance
      return (← getKey? name (← get).anchors)
    let ps ← readProperties
    let node ←
      match ← peek with
      | some (.scalar text plain) => do
        advance
        pure (.scalar ps.tag text plain)
      | some .flowSequence => do
        advance
        pure (.sequence ps.tag (← readFlowItems n true))
      | some .flowMapping => do
        advance
        pure (.mapping ps.tag (← readFlowMembers n true))
      | t => do
        if t = some .entry ∧ dashes then pure (.sequence ps.tag (← readDashes n))
        else if t = some .blockSequence ∧ block then do
          advance
          pure (.sequence ps.tag (← readItems n))
        else if t = some .blockMapping ∧ block then do
          advance
          pure (.mapping ps.tag (← readMembers n))
        else if ps.given then pure (.scalar ps.tag "" true)
        else failure
    if let some a := ps.anchor then modify fun r => { r with anchors := (a, node) :: r.anchors }
    return node

/-- A node that may be left out. -/
def readOptional : Nat → Bool → Reader Node
  | 0, _ => failure
  | n + 1, block => do
    match ← peek with
    | none => return .empty
    | some t => if isEnding t then return .empty else readNode n block block

/-- The entries of a sequence that is a block. -/
def readItems : Nat → Reader (List Node)
  | 0 => failure
  | n + 1 => do
    if ← accept .blockEnd then return []
    else if ← accept .entry then
      let item ← if ← nextIs [.entry, .blockEnd] then pure .empty else readNode n true false
      return item :: (← readItems n)
    else failure

/-- The entries of a sequence at the indent of its mapping, which has no end of its own. -/
def readDashes : Nat → Reader (List Node)
  | 0 => failure
  | n + 1 => do
    if ← accept .entry then
      let item ←
        if ← nextIs [.entry, .key, .value, .blockEnd] then pure .empty else readNode n true false
      return item :: (← readDashes n)
    else return []

/-- The members of a mapping that is a block. -/
def readMembers : Nat → Reader (List (Node × Node))
  | 0 => failure
  | n + 1 => do
    if ← accept .blockEnd then return []
    else if ← accept .key then
      let k ← readOptional n true
      let v ← if ← accept .value then readOptional n true else pure .empty
      return (k, v) :: (← readMembers n)
    else failure

/-- The entries of a sequence in brackets. One with a colon is a mapping of its own. -/
def readFlowItems : Nat → Bool → Reader (List Node)
  | 0, _ => failure
  | n + 1, first => do
    if ← accept .flowSequenceEnd then return []
    readComma first
    if ← accept .flowSequenceEnd then return []
    let item ←
      if ← accept .key then do
        let k ← readOptional n false
        let v ← if ← accept .value then readOptional n false else pure .empty
        pure (.mapping none [(k, v)])
      else readNode n false false
    return item :: (← readFlowItems n false)

/-- The members of a mapping in braces. A key may stand alone. -/
def readFlowMembers : Nat → Bool → Reader (List (Node × Node))
  | 0, _ => failure
  | n + 1, first => do
    if ← accept .flowMappingEnd then return []
    readComma first
    if ← accept .flowMappingEnd then return []
    let member ←
      if ← accept .key then do
        let k ← readOptional n false
        let v ← if ← accept .value then readOptional n false else pure .empty
        pure (k, v)
      else do pure (← readNode n false false, .empty)
    return member :: (← readFlowMembers n false)

end

/-- The versions of the format that can be read. -/
def isVersion (line : String) : Bool :=
  let words := (String.ofList (line.toList.takeWhile (· != '#'))).splitOn " "
  [["%YAML", "1.1"], ["%YAML", "1.2"]].contains (words.filter (!·.isEmpty))

/-- What comes before a document: a version at most, and three dashes, which a version needs. -/
def readStart : Reader Bool := do
  match ← peek with
  | some (.directive line) =>
    advance
    if !isVersion line then failure
    if !(← accept .documentStart) then failure
    return true
  | _ => accept .documentStart

/-- Reads the one document of a text, which is empty for a text without any. -/
def readDocument : Reader Node := do
  let fuel := 4 * (← get).tokens.length + 4
  let marked ← readStart
  let node ←
    if marked || (← peek).isNone then readOptional fuel true else readNode fuel true false
  let left := (← get).tokens
  if left.all (· == .documentEnd) then return node else failure

def Node.ofTokens? (ts : List Token) : Option Node := (readDocument.run ⟨ts, []⟩).map Prod.fst

end RequestLang.Yaml

import RequestLang.Text.Search
import RequestLang.Url.Domain

/-! Hosts of URLs: names, and addresses in four or in sixteen bytes. -/
namespace RequestLang

inductive UrlFault where
  | emptyHost
  | badDomain
  | badPort
  | badIpv4
  | badIpv6
  | badHostCharacter
  | relative
  deriving DecidableEq, Repr

def UrlFault.message : UrlFault → String
  | .emptyHost => "empty host"
  | .badDomain => "invalid international domain name"
  | .badPort => "invalid port number"
  | .badIpv4 => "invalid IPv4 address"
  | .badIpv6 => "invalid IPv6 address"
  | .badHostCharacter => "invalid domain character"
  | .relative => "relative URL without a base"

namespace Host

def splitChars (mark : Char) (cs : List Char) : List (List Char) :=
  ((String.ofList cs).splitOn (String.singleton mark)).map String.toList

/-- A number in base eight after a zero and in base sixteen after `0x`. -/
def number? (cs : List Char) : Option Nat :=
  let (base, ds) :=
    match cs with
    | '0' :: 'x' :: ds | '0' :: 'X' :: ds => (16, ds)
    | '0' :: d :: ds => (8, d :: ds)
    | ds => (10, ds)
  if cs.isEmpty then none
  else ds.foldlM (fun n d => do
    let v ← Percent.digitValue? d
    if v < base then some (base * n + v) else none) 0

/-- The pieces between dots, without an empty one at the end. -/
def dotted (cs : List Char) : List (List Char) :=
  let parts := splitChars '.' cs
  if parts.length > 1 && parts.getLast? == some [] then parts.dropLast else parts

def endsInNumber (cs : List Char) : Bool :=
  match (dotted cs).getLast? with
  | some last => !last.isEmpty && (last.all Char.isDigit || (number? last).isSome)
  | none => false

/-- Up to four numbers, of which the last one fills the bytes that are left. -/
def ipv4? (cs : List Char) : Option Nat := do
  let parts := dotted cs
  if parts.length > 4 then none
  let numbers ← parts.mapM number?
  let last ← numbers.getLast?
  let front := numbers.dropLast
  if front.any (· > 255) || last ≥ Nat.pow 256 (4 - front.length) then none
  else some (front.zipIdx.foldl (fun n (b, i) => n + b * Nat.pow 256 (3 - i)) last)

def ipv4Text (n : Nat) : List Char :=
  List.intercalate ['.'] ([3, 2, 1, 0].map fun i => Nat.toDigits 10 (n / Nat.pow 256 i % 256))

/-- A decimal byte without a leading zero. -/
def plainByte? (cs : List Char) : Option Nat := do
  let n ← Text.natural? cs
  if cs.all Char.isDigit && n ≤ 255 && (cs.length = 1 || cs.head? != some '0') then some n else none

def group? (cs : List Char) : Option Nat :=
  if cs.isEmpty || cs.length > 4 then none
  else cs.foldlM (fun n c => (Percent.digitValue? c).map (16 * n + ·)) 0

/-- Groups between colons. The last one may be written as four bytes. -/
def groups? (cs : List Char) : Option (List Nat) :=
  if cs.isEmpty then some []
  else
    let parts := splitChars ':' cs
    match parts.getLast? with
    | some last =>
      if last.contains '.' then do
        let front ← parts.dropLast.mapM group?
        let bytes ← (splitChars '.' last).mapM plainByte?
        match bytes with
        | [a, b, c, d] => some (front ++ [256 * a + b, 256 * c + d])
        | _ => none
      else parts.mapM group?
    | none => none

/-- Eight groups, or fewer around a double colon. -/
def ipv6? (cs : List Char) : Option (List Nat) :=
  match (String.ofList cs).splitOn "::" with
  | [whole] => do
    let groups ← groups? whole.toList
    if groups.length = 8 then some groups else none
  | [before, after] => do
    if before.toList.contains '.' then none
    let front ← groups? before.toList
    let back ← groups? after.toList
    if front.length + back.length ≤ 7 then
      some (front ++ List.replicate (8 - front.length - back.length) 0 ++ back)
    else none
  | _ => none

/-- How many zeros stand at the head. -/
def zeroRun (gs : List Nat) : Nat := (gs.takeWhile (· == 0)).length

/-- The first of the longest runs of at least two zeros, as where it begins and its length. -/
def longestRun (gs : List Nat) : Option (Nat × Nat) :=
  (List.range gs.length).foldl (fun best i =>
    let n := zeroRun (gs.drop i)
    if 2 ≤ n ∧ (best.map Prod.snd).getD 0 < n then some (i, n) else best) none

def groupsText (gs : List Nat) : List Char :=
  List.intercalate [':'] (gs.map (Nat.toDigits 16))

def ipv6Text (gs : List Nat) : List Char :=
  let inner :=
    match longestRun gs with
    | some (i, n) => groupsText (gs.take i) ++ [':', ':'] ++ groupsText (gs.drop (i + n))
    | none => groupsText gs
  '[' :: inner ++ [']']

def bracketed? (cs : List Char) : Except UrlFault (List Char) :=
  match cs.getLast?, ipv6? (cs.drop 1).dropLast with
  | some ']', some groups => .ok (ipv6Text groups)
  | _, _ => .error .badIpv6

/-- Characters that no host may hold. -/
def isForbidden (c : Char) : Bool :=
  ['\x00', '\t', '\n', '\r', ' ', '#', '/', ':', '<', '>', '?', '@', '[', '\\', ']', '^', '|'].contains c

/-- The host of a scheme that is not known, which is kept as it is. -/
def ofOpaque (cs : List Char) : Except UrlFault (List Char) :=
  if cs.head? = some '[' then bracketed? cs
  else if cs.any isForbidden then .error .badHostCharacter
  else .ok (Percent.encode (fun c => 32 ≤ c.toNat ∧ c.toNat < 127) (Bytes.ofChars cs))

/-- The host of a scheme that is known: a name in ASCII, or an address. -/
def ofDomain (cs : List Char) : Except UrlFault (List Char) :=
  if cs.head? = some '[' then bracketed? cs
  else
    match (Percent.decode (Bytes.ofChars cs)).chars?.bind Domain.toAscii? with
    | none => .error .badDomain
    | some name =>
      if name.isEmpty then .error .emptyHost
      else if endsInNumber name then
        match ipv4? name with
        | some n => .ok (ipv4Text n)
        | none => .error .badIpv4
      else .ok name

end Host
end RequestLang

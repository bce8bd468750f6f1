import RequestLang.Document
import RequestLang.Failure
import RequestLang.Text.Blank
import RequestLang.Text.Search

/-! Choosing a request of a list, and the requests that it inherits from. -/
namespace RequestLang.Target

/-- The place of the first request that goes by a name. -/
def findFrom (name : String) (index : Nat) : List Request → Option Nat
  | [] => none
  | r :: rs => if r.displayName index = name then some index else findFrom name (index + 1) rs

def find? (requests : List Request) (name : String) : Option Nat := findFrom name 0 requests

def named (requests : List Request) (name : String) : Except Failure Nat :=
  match find? requests name with
  | some i => .ok i
  | none => .error (.targetNotFound name)

/-- A number counts requests from one. Everything else, and a number too large, is a name. -/
def select (requests : List Request) (target : String) : Except Failure Nat :=
  let target := Text.trim target
  match Text.natural? target.toList with
  | some n => if 1 ≤ n ∧ n ≤ requests.length then .ok (n - 1) else named requests target
  | none => named requests target

def nameAt (requests : List Request) (index : Nat) : String :=
  match requests[index]? with
  | some r => r.displayName index
  | none => toString (index + 1)

/-- Walks from a request to its base as long as there is one. `walked` holds the places passed,
the last one first; the first argument bounds the number of steps. -/
def walk (requests : List Request) : Nat → List Nat → Nat → Except Failure (List Nat)
  | 0, walked, current => .ok (current :: walked).reverse
  | n + 1, walked, current =>
    match requests[current]?.bind Request.base with
    | none => .ok (current :: walked).reverse
    | some base =>
      match find? requests base with
      | none => .error (.undefinedBase (nameAt requests current) base)
      | some next =>
        if (current :: walked).contains next then
          .error (.circularBase (((current :: walked).reverse.map (nameAt requests)) ++ [base]))
        else walk requests n (current :: walked) next

/-- The request and its ancestors. No request comes twice, so that there are at most as many steps
as requests. -/
def chain (requests : List Request) (index : Nat) : Except Failure (List Nat) :=
  walk requests requests.length [] index

end RequestLang.Target

/-! Addresses of requests: joining them along a chain, and the scheme they start with. -/
namespace RequestLang.Address

def schemes : List (List Char) :=
  ["http://".toList, "https://".toList, "http+unix://".toList]

def hasScheme (cs : List Char) : Bool := schemes.any (·.isPrefixOf cs)

/-- How many characters come before the path or the query of an address. -/
def pathStart (cs : List Char) : Nat :=
  let start := (Text.through? [':', '/', '/'] cs).getD 0
  start + ((cs.drop start).takeWhile fun c => c != '/' && c != '?').length

def withoutTrailing (mark : Char) (cs : List Char) : List Char :=
  (cs.reverse.dropWhile (· == mark)).reverse

/-- An address with a scheme stands alone. A slash at the end of the base and at the head of the
next one makes the path begin anew; else they are joined by one slash. -/
def joinChars (base next : List Char) : List Char :=
  if base.isEmpty || hasScheme next then next
  else if next.isEmpty then base
  else if next.head? == some '/' && base.getLast? == some '/' then base.take (pathStart base) ++ next
  else withoutTrailing '/' base ++ '/' :: next.dropWhile (· == '/')

def isAbsolute (url : String) : Bool := hasScheme url.toList

def join (base next : String) : String := String.ofList (joinChars base.toList next.toList)

def withScheme (url : String) : String := if isAbsolute url then url else "http://" ++ url

end RequestLang.Address

import RequestLang.Text.Word
import RequestLang.Url

/-! The service and the region that a host name of Amazon tells. -/
namespace RequestLang.AwsHost

def isLower (c : Char) : Bool := 'a' ≤ c && c ≤ 'z'

def isCountry (cs : List Char) : Bool := cs.length == 2 && cs.all isLower

def isDirection (cs : List Char) : Bool := !cs.isEmpty && cs.all isLower

def isOrdinal (cs : List Char) : Bool := !cs.isEmpty && cs.all Text.isDecimalDigit

/-- A part of the world with rules of its own. -/
def isPartition : List Char → Bool
  | ['g', 'o', 'v'] => true
  | ['i', 's', 'o'] => true
  | ['i', 's', 'o', c] => isLower c
  | _ => false

/-- A country, perhaps a partition, a direction and a number, with dashes between. -/
def isRegion (label : List Char) : Bool :=
  match Host.splitChars '-' label with
  | [country, direction, ordinal] => isCountry country && isDirection direction && isOrdinal ordinal
  | [country, partition, direction, ordinal] =>
    isCountry country && isPartition partition && isDirection direction && isOrdinal ordinal
  | _ => false

/-- A text on one line, with at least one character. -/
def isLine (cs : List Char) : Bool := !cs.isEmpty && !cs.contains '\n'

/-- A service with a region behind it. The service is as long as it can be. -/
def splitLabel? (label : List Char) : Option (List Char × List Char) :=
  let join (parts : List (List Char)) : List Char := List.intercalate ['-'] parts
  match (Host.splitChars '-' label).reverse with
  | ordinal :: direction :: a :: b :: front =>
    if isOrdinal ordinal && isDirection direction then
      let short := join (b :: front).reverse
      let long := join front.reverse
      if isCountry a then if isLine short then some (short, join [a, direction, ordinal]) else none
      else if a = ['g', 'o', 'v'] && isCountry b && isLine long then
        some (long, join [b, a, direction, ordinal])
      else none
    else none
  | _ => none

def suffixes : List (List Char) := [".amazonaws.com.cn".toList, ".amazonaws.com".toList]

/-- What stands before the name of the provider. -/
def inner? (host : List Char) : Option (List Char) :=
  suffixes.findSome? fun s =>
    if s.isSuffixOf host then some (host.take (host.length - s.length)) else none

/-- The label before the last region that stands alone, with that region. -/
def regionLabel? : List (List Char) → Option (Option (List Char) × List Char)
  | [] => none
  | l :: ls =>
    match regionLabel? ls with
    | some (none, region) => some (some l, region)
    | some found => some found
    | none => if isRegion l then some (none, l) else none

/-- A region stands in a label of its own behind the service, or in the last label together with
the service. -/
def infer (host : String) : Option String × Option String :=
  match inner? host.toLower.toList with
  | none => (none, none)
  | some inner =>
    let labels := Host.splitChars '.' inner
    match regionLabel? labels with
    | some (service, region) => (service.map String.ofList, some (String.ofList region))
    | none =>
      match labels.getLast? with
      | none => (none, none)
      | some last =>
        match splitLabel? last with
        | some (service, region) => (some (String.ofList service), some (String.ofList region))
        | none => (some (String.ofList last), none)

def usualRegion : String := "us-east-1"

/-- Fills what is not given from the URL. Unless both are given, the URL is right where it differs
from what is given. -/
def complete (url : String) (service region : Option String) : String × String :=
  match service, region with
  | some s, some r => (s, r)
  | _, _ =>
    let host :=
      match Url.read url with
      | .ok u => u.host.getD ""
      | .error _ => ""
    let (inferredService, inferredRegion) := infer host
    (((inferredService.or service).getD ""), ((inferredRegion.or region).getD usualRegion))

end RequestLang.AwsHost

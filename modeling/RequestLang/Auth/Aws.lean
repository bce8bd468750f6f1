import RequestLang.Auth.Outgoing
import RequestLang.Calendar
import RequestLang.Hash
import RequestLang.Text.Base64

/-! Requests signed for Amazon, with a key that is derived for a day, a region and a service. -/
namespace RequestLang.Aws

structure Keys where
  accessId : String
  secretKey : String
  service : String
  region : String
  sessionToken : Option String
  deriving DecidableEq, Repr

/-- The functions that signing rests on: a hash of bytes, and a code from a key and a message. -/
structure Hashing where
  digest : Bytes → Bytes
  code : Bytes → Bytes → Bytes

def Hashing.usual : Hashing := ⟨Sha256.digest, hmac Sha256.digest⟩

def algorithm : String := "AWS4-HMAC-SHA256"

def dateHeader : String := "x-amz-date"

def contentHeader : String := "x-amz-content-sha256"

def tokenHeader : String := "x-amz-security-token"

/-- Pairs in the order of their names, and those of one name in the order of their values. -/
def pairLe (a b : String × String) : Bool := a.1 < b.1 || (a.1 == b.1 && !(b.2 < a.2))

def sorted (pairs : List (String × String)) : List (String × String) := pairs.mergeSort pairLe

/-- The pairs of the query in order, encoded anew. -/
def canonicalQuery (pairs : List (String × String)) : String :=
  "&".intercalate ((sorted (pairs.map fun (k, v) =>
    (Percent.encodeStrictly k, Percent.encodeStrictly v))).map fun (k, v) => k ++ "=" ++ v)

/-- The host with a port that is not the usual one. -/
def hostText? (url : Url) : Option String :=
  (url.host.filter (!·.isEmpty)).map fun h =>
    match url.port with
    | some p => h ++ ":" ++ toString p
    | none => h

def isSigned (name : String) : Bool := name == "content-type" || name.startsWith "x-amz-"

/-- The fields that the signature covers. -/
def signedFields (host : String) (h : Headers) : List (String × String) :=
  let own := h.toList.map fun (name, value) => (name.toLower, Text.trim value)
  sorted (own.filter (isSigned ·.1) ++ [("host", host)])

def signedNames (fields : List (String × String)) : String :=
  ";".intercalate (fields.map Prod.fst)

def canonicalRequest (method : Method) (url : Url) (fields : List (String × String))
    (contentHash : String) : String :=
  let headerText := String.join (fields.map fun (k, v) => k ++ ":" ++ v ++ "\n")
  "\n".intercalate [method.name, url.path, canonicalQuery url.queryPairs, headerText,
    signedNames fields, contentHash]

def scope (k : Keys) (day : String) : String :=
  day ++ "/" ++ k.region ++ "/" ++ k.service ++ "/aws4_request"

def signingKey (f : Hashing) (k : Keys) (day : String) : Bytes :=
  [day, k.region, k.service, "aws4_request"].foldl
    (fun key text => f.code key (Bytes.ofString text)) (Bytes.ofString ("AWS4" ++ k.secretKey))

/-- Adds the time, the hash of the body and the token. -/
def stamp (k : Keys) (time contentHash : String) (o : Outgoing) : Outgoing :=
  let o := (o.withHeader dateHeader time).withHeader contentHeader contentHash
  match k.sessionToken with
  | some token => o.withHeader tokenHeader token
  | none => o

def authorization (f : Hashing) (k : Keys) (now : Moment) (method : Method) (url : Url)
    (fields : List (String × String)) (contentHash : String) : String :=
  let scope := scope k now.dayText
  let request := canonicalRequest method url fields contentHash
  let toSign := "\n".intercalate
    [algorithm, now.basicText, scope, (f.digest (Bytes.ofString request)).hexText]
  let signature := (f.code (signingKey f k now.dayText) (Bytes.ofString toSign)).hexText
  algorithm ++ " Credential=" ++ k.accessId ++ "/" ++ scope ++ ", SignedHeaders=" ++
    signedNames fields ++ ", Signature=" ++ signature

/-- Signs a request that goes out at `now`. -/
def sign (f : Hashing) (k : Keys) (now : Moment) (o : Outgoing) : Except Failure Outgoing := do
  let url ← o.readUrl
  match hostText? url with
  | none => throw (.network ("url `" ++ o.url ++ "` has no host to sign"))
  | some host =>
    let contentHash := (f.digest (o.body.getD [])).hexText
    let o := stamp k now.basicText contentHash o
    let fields := signedFields host o.headers
    return o.authorize (authorization f k now o.method url fields contentHash)

end RequestLang.Aws

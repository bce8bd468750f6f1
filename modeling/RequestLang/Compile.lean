import RequestLang.Compile.Target
import RequestLang.Compile.Credentials

/-! Turning a request and its ancestors into a definition. -/
namespace RequestLang

namespace Compile

/-- The request comes first and its ancestors follow, the nearest first. -/
abbrev Chain := List Request

/-- A quote at each end is taken off. -/
def stripQuotes (s : String) : String :=
  match Placeholder.unquoted? s.toList with
  | some inner => String.ofList inner
  | none => s

/-- The script of the request itself, or of the nearest ancestor with one unless it wants none. -/
def script? (child : Request) (chain : Chain) : Option Script :=
  if child.flags.noParentScript then child.script else chain.findSome? Request.script

/-- Addresses are joined from the last ancestor to the request. -/
def url (chain : Chain) : Resolve String := do
  let joined ← chain.reverse.foldlM (fun joined r => do
    return Address.join joined (Text.trim (← Resolve.expand r.url))) ""
  return Address.withScheme joined

/-- Compiles what the nearest request that has it says, beside the file that this request is in. -/
def nearest {α β : Type} (field : Request → Option α) (compile : Option String → α → Resolve β)
    (chain : Chain) : Resolve (Option β) :=
  match chain.findSome? fun r => (field r).map (r.source, ·) with
  | none => return none
  | some (source, x) => do return some (← compile source x)

def payload? (fs : Files) : Chain → Resolve (Option Payload) :=
  nearest Request.payload fun source p => p.expand fs source

/-- A payload of the request itself asks for a post before ancestors are looked at. -/
def method (child : Request) (chain : Chain) (payload : Option Payload) : Method :=
  match child.method with
  | some m => m
  | none =>
    if child.payload.isSome then .POST
    else
      match chain.findSome? Request.method with
      | some m => m
      | none => if payload.isSome then .POST else .GET

/-- The fields that hold for every request, then those of the ancestors and of the request. -/
def headers (defaults : List (String × String)) (chain : Chain) : Resolve Headers := do
  let start ← defaults.foldlM (fun (h : Headers) (name, value) => do
    let name ← Resolve.expand name
    return h.insert name (← Resolve.expand value)) {}
  (chain.reverse.flatMap Request.headers).foldlM (fun (h : Headers) (name, value) => do
    let name ← Resolve.expand name
    let value ← Resolve.expand value
    return h.insert (Text.trim name) (stripQuotes (Text.trim value))) start

/-- The media type of the payload stands in unless a content type is written. -/
def withContentType (payload : Option Payload) (h : Headers) : Headers :=
  match payload.bind Payload.mime? with
  | some mime => if h.contains "content-type" then h else h.insert "content-type" mime
  | none => h

def query (chain : Chain) : Resolve Form.Fields :=
  (chain.reverse.flatMap Request.queries).foldlM (fun fields (name, value) => do
    let name ← Resolve.expand name
    return fields.add name (← Resolve.expand value)) []

def auth? (fs : Files) (url : String) : Chain → Resolve (Option Auth) :=
  nearest Request.auth fun source a => a.expand fs url source

def certificate? (fs : Files) : Chain → Resolve (Option Certificate) :=
  nearest Request.certificate fun source c => c.expand fs source

/-- The last tag that names a proxy wins, and those of the request come last. -/
def proxy (chain : Chain) : Resolve Proxy :=
  (chain.reverse.flatMap Request.tags).foldlM (fun (p : Proxy) (key, value) => do
    if key = "http.proxy" then return { p with http := some (← Resolve.expand value) }
    else if key = "https.proxy" then return { p with https := some (← Resolve.expand value) }
    else return p) {}

def output? : Chain → Resolve (Option String) :=
  nearest Request.output fun source path => do return Path.relativeTo source (← Resolve.expand path)

/-- What a script sets before its request is compiled, unless it fails. -/
abbrev BeforeRequest := Script → Except Failure (List (String × String))

def runBefore (before : BeforeRequest) : Option Script → Resolve Unit
  | none => return ()
  | some s => do
    let updates ← Resolve.ofExcept (before s)
    modify fun r => updates.foldl (fun r (k, v) => r.addCommandLine k v) r

/-- What comes before anything is expanded. -/
def prepare (before : BeforeRequest) (insecure : Bool) (script : Option Script) : Resolve Unit := do
  if insecure then modify Resolver.enableCommands
  runBefore before script

/-- Compiles a request that goes by `name`. -/
def chain (fs : Files) (defaults : List (String × String)) (before : BeforeRequest) (name : String)
    (child : Request) (ancestors : List Request) : Resolve Definition := do
  let chain := child :: ancestors
  let insecure := chain.any (·.flags.insecure)
  let script := script? child chain
  prepare before insecure script
  let url ← url chain
  let payload ← payload? fs chain
  let headers ← headers defaults chain
  let query ← query chain
  let auth ← auth? fs url chain
  let certificate ← certificate? fs chain
  let proxy ← proxy chain
  let output ← output? chain
  return {
    name
    description := child.description
    method := method child chain payload
    url
    headers := withContentType payload headers
    query
    payload
    auth
    certificate
    output
    proxy
    flags :=
      { clear := chain.any (·.flags.clear), insecure, noParentScript := child.flags.noParentScript }
    script }

/-- Compiles the request that `target` selects. -/
def targetWith (fs : Files) (requests : List Request) (defaults : List (String × String))
    (before : BeforeRequest) (target : String) : Resolve Definition := do
  let index ← Resolve.ofExcept (Target.select requests target)
  let places ← Resolve.ofExcept (Target.chain requests index)
  match places.filterMap (requests[·]?) with
  | child :: ancestors => chain fs defaults before (child.displayName index) child ancestors
  | [] => throw (.targetNotFound target)

/-- Compiles a request whose script cannot fail before it. -/
def target (fs : Files) (requests : List Request) (defaults : List (String × String))
    (updates : Script → List (String × String)) (target : String) : Resolve Definition :=
  targetWith fs requests defaults (fun s => .ok (updates s)) target

end Compile
end RequestLang

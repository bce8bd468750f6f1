import Mathlib
import RequestLang.Proofs.Compile.Ancestry
import RequestLang.Proofs.Compile.Fields
import RequestLang.Proofs.Property.Run

/-! What a definition takes from a request and what from its ancestors: the last header of a name,
every pair of a query, the nearest credentials, certificate, payload, output and script, and every
flag. -/
namespace RequestLang
open Resolve

namespace Resolve

/-- A name and its value with their placeholders expanded, the name first. -/
def expandPair (e : String × String) : Resolve (String × String) := do
  let name ← expand e.1
  return (name, ← expand e.2)

/-- Pairs with their placeholders expanded, one after another. -/
def expandPairs (entries : List (String × String)) : Resolve (List (String × String)) :=
  entries.mapM expandPair

theorem foldlM_eq_mapM {α β γ : Type} (f : α → Resolve β) (g : γ → β → γ) (xs : List α) (init : γ) :
    xs.foldlM (fun acc x => do return g acc (← f x)) init = do return (← xs.mapM f).foldl g init := by
  induction xs generalizing init with
  | nil => simp
  | cons x xs ih => simp only [List.foldlM_cons, List.mapM_cons, List.foldl_cons, bind_assoc, pure_bind, ih]

end Resolve

namespace Compile

/-- A header of a request once it is expanded. -/
def tidyHeader (e : String × String) : String × String := (Text.trim e.1, stripQuotes (Text.trim e.2))

theorem headers_eq (defaults : List (String × String)) (chain : Chain) :
    headers defaults chain = do
      let given ← expandPairs defaults
      let written ← expandPairs (chain.reverse.flatMap Request.headers)
      return (given ++ written.map tidyHeader).foldl (fun h e => h.insert e.1 e.2) {} := by
  have hgiven := foldlM_eq_mapM expandPair (fun (h : Headers) e => h.insert e.1 e.2) defaults {}
  have hwritten (h : Headers) := foldlM_eq_mapM expandPair
    (fun (h : Headers) e => h.insert (tidyHeader e).1 (tidyHeader e).2) (chain.reverse.flatMap Request.headers) h
  simp only [expandPair, tidyHeader, bind_assoc, pure_bind] at hgiven hwritten
  simp only [headers, hgiven, hwritten, expandPairs, tidyHeader, bind_assoc, pure_bind,
    List.foldl_append, List.foldl_map]

theorem query_eq (chain : Chain) :
    query chain = do
      let asked ← expandPairs (chain.reverse.flatMap Request.queries)
      return asked.foldl (fun fields e => Form.Fields.add fields e.1 e.2) [] := by
  have h := foldlM_eq_mapM expandPair (fun (fields : Form.Fields) e => fields.add e.1 e.2)
    (chain.reverse.flatMap Request.queries) []
  simp only [expandPair, bind_assoc, pure_bind] at h
  simp only [query, expandPairs, h]

/-- What a chain has in a field is that of its nearest request with one, compiled beside the file of
that request. -/
inductive Inherits {α β : Type} (field : Request → Option α) (compile : Option String → α → Resolve β)
    (chain : Chain) (r : Resolver) : Option β → Resolver → Prop
  | none (h : ∀ q ∈ chain, field q = .none) : Inherits field compile chain r .none r
  | some {nearer farther : Chain} {q : Request} {x : α} {y : β} {r' : Resolver}
    (hchain : chain = nearer ++ q :: farther) (hnearer : ∀ p ∈ nearer, field p = .none) (hq : field q = .some x)
    (hcompile : on (compile q.source x) r = (.ok y, r')) : Inherits field compile chain r (.some y) r'

theorem inherits_of_nearest {α β : Type} {field : Request → Option α} {compile : Option String → α → Resolve β}
    {chain : Chain} {r r' : Resolver} {y : Option β} (h : on (nearest field compile chain) r = (.ok y, r')) :
    Inherits field compile chain r y r' := by
  rw [nearest] at h
  split at h
  · rename_i hnone
    simp only [on_pure, Prod.mk.injEq, Except.ok.injEq] at h
    obtain ⟨rfl, rfl⟩ := h
    refine .none fun q hq => ?_
    simpa using List.findSome?_eq_none_iff.mp hnone q hq
  · rename_i source x hsome
    obtain ⟨y, s, hcompile, hy⟩ := on_bind_eq_ok.mp h
    simp only [on_pure, Prod.mk.injEq, Except.ok.injEq] at hy
    obtain ⟨rfl, rfl⟩ := hy
    obtain ⟨nearer, q, farther, hchain, hq, hnearer⟩ := List.findSome?_eq_some_iff.mp hsome
    obtain ⟨x', hx, hpair⟩ := Option.map_eq_some_iff.mp hq
    cases hpair
    exact .some hchain (fun p hp => by simpa using hnearer p hp) hx hcompile

/-- The script of a request that has none of its own and does not refuse one. -/
theorem inherits_script (chain : Chain) (r : Resolver) :
    Inherits Request.script (fun _ => pure) chain r (chain.findSome? Request.script) r := by
  cases h : chain.findSome? Request.script with
  | none => exact .none (List.findSome?_eq_none_iff.mp h)
  | some s =>
    obtain ⟨nearer, q, farther, hchain, hq, hnearer⟩ := List.findSome?_eq_some_iff.mp h
    exact .some hchain hnearer hq rfl

/-- The states that a compilation passes through, and what pairs of texts expand to on the way. -/
structure Course where
  prepared : Resolver
  addressed : Resolver
  laden : Resolver
  given : List (String × String)
  begun : Resolver
  written : List (String × String)
  headed : Resolver
  asked : List (String × String)
  queried : Resolver
  authorized : Resolver
  certified : Resolver
  proxied : Resolver

/-- The media type of a payload gives the value of this name alone. -/
def mimeFor (payload : Option Payload) (name : String) : Option String :=
  if name.toLower = "content-type" then payload.bind Payload.mime? else none

/-- A definition `d` is what a chain amounts to. The resolver `r` becomes `r'` over the states of the
course `c`. -/
structure Merged (fs : Files) (defaults : List (String × String)) (before : BeforeRequest) (child : Request)
    (chain : Chain) (r : Resolver) (c : Course) (d : Definition) (r' : Resolver) : Prop where
  prepare : on (prepare before d.flags.insecure d.script) r = (.ok (), c.prepared)
  url : on (Compile.url chain) c.prepared = (.ok d.url, c.addressed)
  payload : Inherits Request.payload (fun source p => p.expand fs source) chain c.addressed d.payload c.laden
  given : on (expandPairs defaults) c.laden = (.ok c.given, c.begun)
  written : on (expandPairs (chain.reverse.flatMap Request.headers)) c.begun = (.ok c.written, c.headed)
  header : ∀ name, d.headers.get? name =
    (Headers.lastValue? name (c.given ++ c.written.map tidyHeader)).or (mimeFor d.payload name)
  listed : ∀ name value, d.headers.get? name = some value ↔
    ∃ n, n.toLower = name.toLower ∧ (n, value) ∈ d.headers.toList
  distinct : (d.headers.toList.map (·.1.toLower)).Nodup
  asked : on (expandPairs (chain.reverse.flatMap Request.queries)) c.headed = (.ok c.asked, c.queried)
  pairs : ∀ name, d.query.pairs.filter (·.1 = name) = c.asked.filter (·.1 = name)
  kept : d.query.pairs.Perm c.asked
  names : (d.query.map Prod.fst).Nodup
  auth : Inherits Request.auth (fun source a => a.expand fs d.url source) chain c.queried d.auth c.authorized
  certificate :
    Inherits Request.certificate (fun source q => q.expand fs source) chain c.authorized d.certificate c.certified
  proxy : on (Compile.proxy chain) c.certified = (.ok d.proxy, c.proxied)
  output : Inherits Request.output (fun source path => do return Path.relativeTo source (← expand path)) chain
    c.proxied d.output r'
  clear : d.flags.clear = true ↔ ∃ q ∈ chain, q.flags.clear = true
  insecure : d.flags.insecure = true ↔ ∃ q ∈ chain, q.flags.insecure = true
  own : child.flags.noParentScript = true → d.script = child.script
  script : child.flags.noParentScript = false → Inherits Request.script (fun _ => pure) chain r d.script r

section
variable {payload : Option Payload} {h : Headers}

theorem get?_withContentType (name : String) :
    (withContentType payload h).get? name = (h.get? name).or (mimeFor payload name) := by
  have hlower : "content-type".toLower = "content-type" := by decide +kernel
  have hsame (hname : name.toLower = "content-type") : h.get? name = h.get? "content-type" := by
    rw [Headers.get?, Headers.get?, hname, hlower]
  unfold withContentType mimeFor
  cases payload.bind Payload.mime? with
  | none => simp
  | some mime =>
    by_cases hname : name.toLower = "content-type"
    · rw [if_pos hname, hsame hname]
      dsimp only
      rw [Headers.contains_eq]
      cases hget : h.get? "content-type" with
      | none => simp [Headers.get?_insert, hname, hlower]
      | some v => simp [hsame hname, hget]
    · rw [if_neg hname, Option.or_none]
      dsimp only
      split
      · rfl
      · rw [Headers.get?_insert, hlower, if_neg hname]

end

theorem merged_of_chain {fs : Files} {defaults : List (String × String)} {before : BeforeRequest} {name : String}
    {child : Request} {ancestors : List Request} {r r' : Resolver} {d : Definition}
    (h : on (chain fs defaults before name child ancestors) r = (.ok d, r')) :
    ∃ c, Merged fs defaults before child (child :: ancestors) r c d r' := by
  simp only [chain, headers_eq, query_eq, on_bind_eq_ok, on_pure, Prod.mk.injEq, Except.ok.injEq] at h
  obtain ⟨_, prepared, hprepare, url, addressed, hurl, payload, laden, hpayload, headers, _,
    ⟨given, begun, hgiven, written, headed, hwritten, hheaders, rfl⟩, query, _,
    ⟨asked, queried, hasked, hquery, rfl⟩, auth, authorized, hauth, certificate, certified, hcertificate,
    proxy, proxied, hproxy, output, _, houtput, rfl, rfl⟩ := h
  refine ⟨⟨prepared, addressed, laden, given, begun, written, headed, asked, queried, authorized,
    certified, proxied⟩, ?_⟩
  constructor
  case prepare => exact hprepare
  case url => exact hurl
  case payload => exact inherits_of_nearest hpayload
  case given => exact hgiven
  case written => exact hwritten
  case header =>
    intro name
    have hnone : ({} : Headers).get? name = none := rfl
    rw [get?_withContentType, ← hheaders, Headers.get?_insertAll, hnone, Option.or_none]
  case listed => exact fun _ _ => Headers.get?_eq_some
  case distinct => exact Headers.nodup_names _
  case asked => exact hasked
  case pairs => exact fun name => hquery ▸ Form.Fields.filter_pairs_addAll asked name
  case kept => exact hquery ▸ Form.Fields.perm_pairs_addAll asked
  case names => exact hquery ▸ Form.Fields.nodup_addAll asked
  case auth => exact inherits_of_nearest hauth
  case certificate => exact inherits_of_nearest hcertificate
  case proxy => exact hproxy
  case output => exact inherits_of_nearest houtput
  case clear => exact List.any_eq_true
  case insecure => exact List.any_eq_true
  case own => exact fun hown => if_pos hown
  case script =>
    intro hown
    have hscript : script? child (child :: ancestors) = (child :: ancestors).findSome? Request.script := by
      rw [script?, hown]
      rfl
    dsimp only
    rw [hscript]
    exact inherits_script _ _

/-- How a request and its ancestors merge. Whatever target is compiled, its definition is that of a
chain which starts at the request selected and follows each base. -/
theorem merged_along_chain (fs : Files) (requests : List Request) (defaults : List (String × String))
    (before : BeforeRequest) (target : String) {r r' : Resolver} {d : Definition}
    (h : on (targetWith fs requests defaults before target) r = (.ok d, r')) :
    ∃ index child ancestors, Target.select requests target = .ok index ∧
      Ancestry requests index (child :: ancestors) ∧
      ∃ c, Merged fs defaults before child (child :: ancestors) r c d r' := by
  simp only [targetWith, on_bind_eq_ok, on_ofExcept_eq_ok] at h
  obtain ⟨index, _, ⟨hindex, rfl⟩, places, _, ⟨hplaces, rfl⟩, h⟩ := h
  have hancestry := Target.ancestry_of_chain hplaces (Target.lt_of_select hindex)
  split at h
  · rename_i child ancestors hchain
    exact ⟨index, child, ancestors, hindex, hchain ▸ hancestry, merged_of_chain h⟩
  · simp at h

/-- Three requests that write one header in three spellings. -/
def threeRequests : List Request :=
  [{ name := some "root", url := "https://h", headers := [("X-A", "1")], queries := [("k", "1")]
     auth := some (.basic "u" "p") },
   { name := some "mid", base := some "root", url := "m", headers := [("x-a", "2")], queries := [("k", "2")] },
   { name := some "leaf", base := some "mid", url := "l", headers := [("X-a ", " '3'")], queries := [("j", "0")]
     payload := some (.json (.bool true)) }]

theorem merged_three_requests :
    let r : Resolver := { surroundings := ⟨fun _ => none, fun _ => none, 0⟩, draws := ⟨id, 0⟩ }
    let run := on (targetWith ⟨[], []⟩ threeRequests [("Accept", "*/*")] (fun _ => .ok []) "leaf") r
    ∃ d, run = (.ok d, run.2) ∧ d.query.pairs = [("k", "1"), ("k", "2"), ("j", "0")] ∧
      ∃ index child ancestors, Target.select threeRequests "leaf" = .ok index ∧
        Ancestry threeRequests index (child :: ancestors) ∧
        ∃ c, Merged ⟨[], []⟩ [("Accept", "*/*")] (fun _ => .ok []) child (child :: ancestors) r c d run.2 := by
  intro r run
  have hshown : run.1.toOption.map (fun d => d.query.pairs) = some [("k", "1"), ("k", "2"), ("j", "0")] := by
    decide +kernel
  obtain ⟨d, hd, hpairs⟩ := exists_ok_of_map hshown
  have hrun : on (targetWith ⟨[], []⟩ threeRequests [("Accept", "*/*")] (fun _ => .ok []) "leaf") r = (.ok d, run.2) :=
    Prod.ext hd rfl
  exact ⟨d, hrun, hpairs, merged_along_chain ⟨[], []⟩ threeRequests [("Accept", "*/*")] (fun _ => .ok []) "leaf" hrun⟩

end Compile
end RequestLang

import RequestLang.Compile
import RequestLang.Proofs.Property.Gate
import RequestLang.Proofs.Steps
import RequestLang.Source

/-! A request without a mark for system commands, nor an ancestor with one, is loaded and compiled
without running any. -/
namespace RequestLang
open Resolve

theorem Variable.blind_define (v : Variable) : Blind v.define := by
  refine .bind ?_ fun value => .modify fun r r' h => h.declare v.name value
  unfold valueOf
  split
  · exact .bind (blind_evaluate _) fun _ => .pure _
  · refine .bind (.mapM blind_expand _) fun args => .get_bind fun r r' h => ?_
    obtain ⟨hvalue, hdraw⟩ := h.draw (Function.call r.surroundings.now _ args)
    rw [h.now_eq]
    dsimp only
    rw [hvalue]
    refine .bind (.set hdraw) fun _ => ?_
    split
    · exact .pure _
    · exact .throw _
    · exact .throw _
  · refine .get_bind fun r r' h => ?_
    rw [h.fillTemplate_eq]
    exact .pure _

namespace Loading

theorem blind_loadImports (fs : Files) {load : Document → String → Option String → List String → Resolve Loaded}
    (h : ∀ doc text source visited, Blind (load doc text source visited)) (importer : Option String)
    (imports : List Import) (visited : List String) : Blind (loadImports fs load importer imports visited) := by
  induction imports generalizing visited with
  | nil => exact .pure _
  | cons i rest ih =>
    rw [loadImports]
    refine .bind (.ofExcept _) fun path => .ite (ih visited) ?_
    refine .bind (.ofExcept _) fun text => .bind (.ofExcept _) fun doc => ?_
    exact .bind (h ..) fun loaded => .bind (ih loaded.2) fun _ => .pure _

theorem blind_loadDocument (fs : Files) (n : Nat) (doc : Document) (text : String) (source : Option String)
    (visited : List String) : Blind (loadDocument fs n doc text source visited) := by
  induction n generalizing doc text source visited with
  | zero => exact .throw _
  | succ n ih =>
    rw [loadDocument]
    refine .bind (blind_loadImports fs ih source doc.imports visited) fun _ => ?_
    refine .bind (.modify fun r r' h => h.mine text) fun _ => ?_
    exact .bind (.forM Variable.blind_define doc.vars) fun _ => .pure _

theorem blind_loadContent (fs : Files) (text : String) (source : Option String) :
    Blind (loadContent fs text source) :=
  .bind (.ofExcept _) fun _ => .bind (blind_loadDocument ..) fun _ => .bind (.ofExcept _) fun _ => .pure _

end Loading

theorem Source.blind_load (fs : Files) (source : Source) : Blind (source.load fs) := by
  cases source with
  | file path => exact .bind (.ofExcept _) fun _ => Loading.blind_loadContent ..
  | text content path => exact Loading.blind_loadContent ..

namespace Resolve

theorem blind_expandOptional (text : Option String) : Blind (expandOptional text) := by
  cases text with
  | none => exact .pure _
  | some text => exact .bind (blind_expand text) fun _ => .pure _

theorem blind_expandGiven (text : Option String) : Blind (expandGiven text) :=
  .bind (blind_expandOptional text) fun _ => .pure _

theorem blind_contentOf (fs : Files) (role : FileRole) (written path : String) :
    Blind (contentOf fs role written path) := by
  unfold contentOf
  split
  · exact .pure _
  · exact .throw _

theorem blind_certificatePath (fs : Files) (source : Option String) (path : String) :
    Blind (certificatePath fs source path) :=
  .bind (blind_expand path) fun _ => .bind (blind_contentOf ..) fun _ => .pure _

end Resolve

theorem Literal.blind_expand (l : Literal) : Blind l.expand := .ite (.pure _) (Resolve.blind_expand _)

theorem PartTerm.blind_expand (fs : Files) (source : Option String) (p : PartTerm) : Blind (p.expand fs source) := by
  refine .bind (Resolve.blind_expand _) fun name => .bind (Resolve.blind_expand _) fun written => ?_
  refine .bind (blind_expandOptional _) fun mime => ?_
  dsimp only
  split <;> exact .pure _

theorem PayloadTerm.blind_expand (fs : Files) (source : Option String) (p : PayloadTerm) :
    Blind (p.expand fs source) := by
  cases p with
  | raw chunks mime =>
    exact .bind (.mapM Literal.blind_expand chunks) fun _ => .bind (blind_expandOptional mime) fun _ => .pure _
  | form term =>
    refine .bind (blind_evaluate term) fun value => ?_
    split
    · exact .pure _
    · exact .pure _
    · exact .throw _
  | json term => exact .bind (blind_evaluate term) fun _ => .pure _
  | file path mime =>
    exact .bind (Resolve.blind_expand path) fun _ => .bind (blind_contentOf ..) fun _ =>
      .bind (blind_expandOptional mime) fun _ => .pure _
  | multipart parts => exact .bind (.mapM (PartTerm.blind_expand fs source) parts) fun _ => .pure _

namespace AzureFlow

theorem blind_expandScope (scope : Option String) : Blind (expandScope scope) :=
  .bind (blind_expandGiven scope) fun _ => .pure _

theorem blind_expand (fs : Files) (source : Option String) (flow : AzureFlow) : Blind (flow.expand fs source) := by
  cases flow with
  | secret tenant client clientSecret scope =>
    exact .bind (Resolve.blind_expand _) fun _ => .bind (Resolve.blind_expand _) fun _ =>
      .bind (Resolve.blind_expand _) fun _ => .bind (blind_expandScope scope) fun _ => .pure _
  | certificate tenant client path password scope =>
    exact .bind (blind_certificatePath ..) fun _ => .bind (Resolve.blind_expand _) fun _ =>
      .bind (Resolve.blind_expand _) fun _ => .bind (blind_expandGiven _) fun _ =>
      .bind (blind_expandScope scope) fun _ => .pure _
  | cli scope => exact .bind (blind_expandScope scope) fun _ => .pure _
  | device scope => exact .bind (blind_expandScope scope) fun _ => .pure _

end AzureFlow

theorem Auth.blind_expand (fs : Files) (url : String) (source : Option String) (a : Auth) :
    Blind (a.expand fs url source) := by
  cases a with
  | basic | digest | ntlm =>
    exact .bind (Resolve.blind_expand _) fun _ => .bind (Resolve.blind_expand _) fun _ => .pure _
  | hawk id key algorithm =>
    exact .bind (Resolve.blind_expand _) fun _ => .bind (Resolve.blind_expand _) fun _ =>
      .bind (blind_expandGiven _) fun _ => .pure _
  | aws accessId secretKey service region sessionToken =>
    refine .bind (Resolve.blind_expand _) fun _ => .bind (Resolve.blind_expand _) fun _ => .ite (.throw _) ?_
    refine .bind (blind_expandGiven _) fun service => .bind (blind_expandGiven _) fun region => ?_
    exact .ite (.throw _) (.bind (blind_expandGiven _) fun _ => .pure _)
  | azure flow => exact .bind (flow.blind_expand fs source) fun _ => .pure _

theorem Certificate.blind_expand (fs : Files) (source : Option String) (c : Certificate) :
    Blind (c.expand fs source) := by
  cases c with
  | pem certificate key =>
    refine .bind (blind_certificatePath ..) fun _ => ?_
    cases key with
    | none => exact .pure _
    | some key => exact .bind (blind_certificatePath ..) fun _ => .pure _
  | p12 file password =>
    exact .bind (blind_certificatePath ..) fun _ => .bind (blind_expandOptional _) fun _ => .pure _

namespace Compile

theorem blind_url (chain : Chain) : Blind (url chain) :=
  .bind (.foldlM (fun _ _ => .bind (blind_expand _) fun _ => .pure _) _ _) fun _ => .pure _

theorem blind_nearest {α β : Type} (field : Request → Option α) {compile : Option String → α → Resolve β}
    (h : ∀ source x, Blind (compile source x)) (chain : Chain) : Blind (nearest field compile chain) := by
  unfold nearest
  split
  · exact .pure _
  · exact .bind (h ..) fun _ => .pure _

theorem blind_headers (defaults : List (String × String)) (chain : Chain) : Blind (headers defaults chain) := by
  refine .bind (.foldlM (fun h entry => ?_) _ _) fun start => .foldlM (fun h entry => ?_) _ _
  · exact .bind (blind_expand entry.1) fun _ => .bind (blind_expand entry.2) fun _ => .pure _
  · exact .bind (blind_expand entry.1) fun _ => .bind (blind_expand entry.2) fun _ => .pure _

theorem blind_query (chain : Chain) : Blind (query chain) :=
  .foldlM (fun _ _ => .bind (blind_expand _) fun _ => .bind (blind_expand _) fun _ => .pure _) _ _

theorem blind_proxy (chain : Chain) : Blind (proxy chain) := by
  refine .foldlM (fun p tag => ?_) _ _
  exact .ite (.bind (blind_expand _) fun _ => .pure _) (.ite (.bind (blind_expand _) fun _ => .pure _) (.pure _))

theorem blind_runBefore (before : BeforeRequest) (script : Option Script) : Blind (runBefore before script) := by
  cases script with
  | none => exact .pure _
  | some s =>
    refine .bind (.ofExcept _) fun updates => .modify ?_
    induction updates with
    | nil => exact fun _ _ h => h
    | cons e updates ih => exact fun r r' h => ih _ _ (h.addCommandLine e.1 e.2)

theorem blind_prepare (before : BeforeRequest) (script : Option Script) : Blind (prepare before false script) :=
  blind_runBefore before script

theorem blind_chain (fs : Files) (defaults : List (String × String)) (before : BeforeRequest) (name : String)
    {child : Request} {ancestors : List Request} (h : (child :: ancestors).any (·.flags.insecure) = false) :
    Blind (chain fs defaults before name child ancestors) := by
  unfold chain
  dsimp only
  rw [h]
  refine .bind (blind_prepare before _) fun _ => .bind (blind_url _) fun url => ?_
  refine .bind (blind_nearest _ (fun _ p => p.blind_expand fs _) _) fun payload => ?_
  refine .bind (blind_headers defaults _) fun headers => .bind (blind_query _) fun query => ?_
  refine .bind (blind_nearest _ (fun _ a => a.blind_expand fs url _) _) fun auth => ?_
  refine .bind (blind_nearest _ (fun _ c => c.blind_expand fs _) _) fun certificate => ?_
  refine .bind (blind_proxy _) fun proxy => .bind (blind_nearest _ (fun _ path => ?_) _) fun _ => .pure _
  exact .bind (blind_expand path) fun _ => .pure _

/-- The request that a target selects and its ancestors, the nearest first. -/
def chainOf (requests : List Request) (target : String) : Except Failure Chain := do
  let places ← Target.chain requests (← Target.select requests target)
  return places.filterMap (requests[·]?)

/-- Neither the request that a target selects nor an ancestor is marked for system commands. -/
def Gated (requests : List Request) (target : String) : Prop :=
  ∀ chain, chainOf requests target = .ok chain → ∀ q ∈ chain, q.flags.insecure = false

theorem gated_iff {requests : List Request} {target : String} :
    Gated requests target ↔ (chainOf requests target).toOption.all (·.all (!·.flags.insecure)) := by
  cases h : chainOf requests target with
  | error f => simp [Gated, h, Except.toOption]
  | ok chain => simp [Gated, h, Except.toOption]

theorem blind_targetWith (fs : Files) {requests : List Request} (defaults : List (String × String))
    (before : BeforeRequest) {target : String} (h : Gated requests target) :
    Blind (targetWith fs requests defaults before target) := by
  refine .ofExcept_bind fun index hindex => .ofExcept_bind fun places hplaces => ?_
  have hchain : chainOf requests target = .ok (places.filterMap (requests[·]?)) := by
    simp only [chainOf, hindex, ok_bind, hplaces, pure_eq_ok]
  split
  · rename_i child ancestors hsplit
    have hnone : (child :: ancestors).any (·.flags.insecure) = false := by
      rw [List.any_eq_false, ← hsplit]
      intro q hq
      rw [h _ hchain q hq]
      exact Bool.false_ne_true
    exact blind_chain fs defaults before _ hnone
  · exact .throw _

/-- Loads a source and compiles a target of it. -/
def ofSource (fs : Files) (source : Source) (defaults : List (String × String)) (before : BeforeRequest)
    (target : String) : Resolve Definition := do
  targetWith fs (← source.load fs) defaults before target

/-- System commands stay gated. As long as no request that the target takes part in is marked for
them, neither their texts nor what they would print shows in the result, nor in the command line
that scripts write to. -/
theorem commands_gated (fs : Files) (source : Source) (defaults : List (String × String))
    (before : BeforeRequest) (target : String) {r : Resolver} (hnew : r.commandsEnabled = false)
    (hgated : ∀ requests, (on (source.load fs) r).1 = .ok requests → Gated requests target)
    {commands : List (String × String)} (hkeys : commands.map Prod.fst = r.commands.map Prod.fst)
    (runs : String → Option String) :
    let run := on (ofSource fs source defaults before target)
    (run (r.withCommands commands runs)).1 = (run r).1 ∧
      (run (r.withCommands commands runs)).2.commandLine = (run r).2.commandLine := by
  intro run
  have halike : r.Alike (r.withCommands commands runs) := ⟨hnew, commands, runs, hkeys, rfl⟩
  obtain ⟨hresult, hafter⟩ := (source.blind_load fs).bind_on halike fun requests hload =>
    blind_targetWith fs defaults before (hgated requests hload)
  exact ⟨hresult.symm, hafter.commandLine_eq⟩

/-- A notice stands where the command would print, whichever command it is. The mark of another
request does not count. -/
theorem commands_gated_notice :
    let r : Resolver := { commands := [("who", "whoami")], surroundings := ⟨fun _ => none, fun _ => some "me", 0⟩
                          draws := ⟨id, 0⟩ }
    let source := Source.text "@insecure \"a\" \"\x7b\x7bwho\x7d\x7d\"" none
    let run := on (ofSource ⟨[], []⟩ source [] (fun _ => .ok []) "2")
    r.commandsEnabled = false ∧ (run r).1.toOption.map Definition.url = some ("http://" ++ commandsDisabledText) ∧
      (run (r.withCommands [("who", "rm -r .")] fun _ => none)).1 = (run r).1 := by
  intro r source run
  have hgated : (on (source.load ⟨[], []⟩) r).1.toOption.all fun requests =>
      (chainOf requests "2").toOption.all (·.all (!·.flags.insecure)) := by decide +kernel
  refine ⟨rfl, by decide +kernel, ?_⟩
  have hkeys : [("who", "rm -r .")].map Prod.fst = r.commands.map Prod.fst := rfl
  refine (commands_gated ⟨[], []⟩ source [] (fun _ => .ok []) "2" rfl (fun requests hload => ?_) hkeys _).1
  rw [hload] at hgated
  exact gated_iff.mpr hgated

end Compile

end RequestLang

import RequestLang.Proofs.Compile.Gate
import RequestLang.Proofs.Property.Lenient

/-! Compiling with a lenient resolver: the texts of a chain are expanded one after another, each as far as
it can be, and what is in the way is taken down. Only arithmetic still fails for names that nobody knows. -/
namespace RequestLang
open Resolve

/-! The texts of each part of a request, in the order in which they are expanded. -/

/-- A triple-quoted literal is not expanded. -/
def Literal.texts (l : Literal) : List String := if l.quote = .triple then [] else [l.value]

def PartTerm.texts (p : PartTerm) : List String := p.name :: p.source :: p.mime.toList

namespace PayloadTerm

/-- Arithmetic stands somewhere in the payload. -/
def computes : PayloadTerm → Bool
  | .form term | .json term => term.computes
  | _ => false

def texts : PayloadTerm → List String
  | .raw chunks mime => chunks.flatMap Literal.texts ++ mime.toList
  | .form term | .json term => term.texts
  | .file path mime => path :: mime.toList
  | .multipart parts => parts.flatMap PartTerm.texts

end PayloadTerm

def AzureFlow.texts : AzureFlow → List String
  | .secret tenant client clientSecret scope => tenant :: client :: clientSecret :: scope.toList
  | .certificate tenant client path password scope => path :: tenant :: client :: (password.toList ++ scope.toList)
  | .cli scope | .device scope => scope.toList

def Auth.texts : Auth → List String
  | .basic user password | .digest user password | .ntlm user password => [user, password]
  | .hawk id key algorithm => id :: key :: algorithm.toList
  | .aws accessId secretKey service region sessionToken =>
    accessId :: secretKey :: (service.toList ++ (region.toList ++ sessionToken.toList))
  | .azure flow => flow.texts

def Certificate.texts : Certificate → List String
  | .pem certificate key => certificate :: key.toList
  | .p12 file password => file :: password.toList

/-- Of the tags only those that name a proxy count. -/
def Compile.tagTexts (tag : String × String) : List String :=
  if tag.1 = "http.proxy" ∨ tag.1 = "https.proxy" then [tag.2] else []

/-- Addresses come first, the last ancestor's before all others. Of the payload, the credentials, the certificate
and the output only the nearest counts, and of header fields, pairs of the query and proxies all do. -/
def Compile.texts (defaults : List (String × String)) (chain : Chain) : List String :=
  [chain.reverse.map Request.url,
    (chain.findSome? Request.payload).elim [] PayloadTerm.texts,
    (defaults ++ chain.reverse.flatMap Request.headers).flatMap fun e => [e.1, e.2],
    (chain.reverse.flatMap Request.queries).flatMap fun e => [e.1, e.2],
    (chain.findSome? Request.auth).elim [] Auth.texts,
    (chain.findSome? Request.certificate).elim [] Certificate.texts,
    (chain.reverse.flatMap Request.tags).flatMap tagTexts,
    (chain.findSome? Request.output).elim [] ([·])].flatten

variable {P : Prop}

namespace Resolve

theorem follows_expandOptional (text : Option String) : Follows P text.toList (expandOptional text) := by
  cases text with
  | none => exact .pure _
  | some text => exact (Follows.expand text).map fun _ => .pure _

theorem follows_expandGiven (text : Option String) : Follows P text.toList (expandGiven text) :=
  (follows_expandOptional text).map fun _ => .pure _

theorem follows_contentOf (fs : Files) (role : FileRole) (written path : String) {α : Type} {texts : List String}
    {next : Bytes → Resolve α} (h : ∀ content, Follows P texts (next content)) :
    Follows P texts (contentOf fs role written path >>= next) := by
  unfold contentOf
  split
  · exact h _
  · exact .throw rfl texts

theorem follows_certificatePath (fs : Files) (source : Option String) (path : String) :
    Follows P [path] (certificatePath fs source path) :=
  (Follows.expand path).map fun _ => follows_contentOf fs _ _ _ fun _ => .pure _

end Resolve

theorem Literal.follows_expand (l : Literal) : Follows P l.texts l.expand := by
  unfold Literal.texts Literal.expand
  split
  · exact .pure _
  · exact .expand _

theorem PartTerm.follows_expand (fs : Files) (source : Option String) (p : PartTerm) :
    Follows P p.texts (p.expand fs source) := by
  refine (Follows.expand p.name).bind fun name => (Follows.expand p.source).bind fun written => ?_
  refine (follows_expandOptional p.mime).map fun mime => ?_
  dsimp only
  split <;> exact .pure _

theorem PayloadTerm.follows_expand (fs : Files) (source : Option String) (p : PayloadTerm) :
    Follows p.computes p.texts (p.expand fs source) := by
  cases p with
  | raw chunks mime =>
    exact (Follows.mapM Literal.follows_expand chunks).bind fun _ => (follows_expandOptional mime).map fun _ => .pure _
  | form term =>
    refine (follows_evaluate term).map fun value => ?_
    split
    · exact .pure _
    · exact .pure _
    · exact .throw rfl []
  | json term => exact (follows_evaluate term).map fun _ => .pure _
  | file path mime =>
    exact (Follows.expand path).bind fun _ => follows_contentOf fs _ _ _ fun _ =>
      (follows_expandOptional mime).map fun _ => .pure _
  | multipart parts => exact (Follows.mapM (PartTerm.follows_expand fs source) parts).map fun _ => .pure _

namespace AzureFlow

theorem follows_expandScope (scope : Option String) : Follows P scope.toList (expandScope scope) :=
  (follows_expandGiven scope).map fun _ => .pure _

theorem follows_expand (fs : Files) (source : Option String) (flow : AzureFlow) :
    Follows P flow.texts (flow.expand fs source) := by
  cases flow with
  | secret tenant client clientSecret scope =>
    exact (Follows.expand tenant).bind fun _ => (Follows.expand client).bind fun _ =>
      (Follows.expand clientSecret).bind fun _ => (follows_expandScope scope).map fun _ => .pure _
  | certificate tenant client path password scope =>
    exact (follows_certificatePath fs source path).bind fun _ => (Follows.expand tenant).bind fun _ =>
      (Follows.expand client).bind fun _ => (follows_expandGiven password).bind fun _ =>
      (follows_expandScope scope).map fun _ => .pure _
  | cli scope => exact (follows_expandScope scope).map fun _ => .pure _
  | device scope => exact (follows_expandScope scope).map fun _ => .pure _

end AzureFlow

theorem Auth.follows_expand (fs : Files) (url : String) (source : Option String) (a : Auth) :
    Follows P a.texts (a.expand fs url source) := by
  cases a with
  | basic user password | digest user password | ntlm user password =>
    exact (Follows.expand user).bind fun _ => (Follows.expand password).map fun _ => .pure _
  | hawk id key algorithm =>
    exact (Follows.expand id).bind fun _ => (Follows.expand key).bind fun _ =>
      (follows_expandGiven algorithm).map fun _ => .pure _
  | aws accessId secretKey service region sessionToken =>
    refine (Follows.expand accessId).bind fun _ => (Follows.expand secretKey).bind fun _ => .ite (.throw rfl _) ?_
    refine (follows_expandGiven service).bind fun service => (follows_expandGiven region).bind fun region => ?_
    exact .ite (.throw rfl _) ((follows_expandGiven sessionToken).map fun _ => .pure _)
  | azure flow => exact (flow.follows_expand fs source).map fun _ => .pure _

theorem Certificate.follows_expand (fs : Files) (source : Option String) (c : Certificate) :
    Follows P c.texts (c.expand fs source) := by
  cases c with
  | pem certificate key =>
    refine (follows_certificatePath fs source certificate).bind fun _ => ?_
    cases key with
    | none => exact .pure _
    | some key => exact (follows_certificatePath fs source key).map fun _ => .pure _
  | p12 file password =>
    exact (follows_certificatePath fs source file).bind fun _ => (follows_expandOptional password).map fun _ => .pure _

theorem Target.not_isOfName_of_select {requests : List Request} {target : String} {f : Failure}
    (h : select requests target = .error f) : f.isOfName = false := by
  have hnamed {name : String} (hn : named requests name = .error f) : f.isOfName = false := by
    unfold named at hn
    split at hn
    · cases hn
    · cases hn
      rfl
  unfold select at h
  dsimp only at h
  split at h
  · split at h
    · cases h
    · exact hnamed h
  · exact hnamed h

theorem Target.not_isOfName_of_walk {requests : List Request} {n : Nat} {walked : List Nat} {current : Nat}
    {f : Failure} (h : walk requests n walked current = .error f) : f.isOfName = false := by
  induction n generalizing walked current with
  | zero => cases h
  | succ n ih =>
    unfold walk at h
    split at h
    · cases h
    · split at h
      · cases h
        rfl
      · split at h
        · cases h
          rfl
        · exact ih h

namespace Compile

theorem not_isOfName_of_chainOf {requests : List Request} {target : String} {f : Failure}
    (h : chainOf requests target = .error f) : f.isOfName = false := by
  rcases bind_eq_error.mp h with hselect | ⟨index, -, hchain⟩
  · exact Target.not_isOfName_of_select hselect
  · rcases bind_eq_error.mp hchain with hwalk | ⟨places, -, hplaces⟩
    · exact Target.not_isOfName_of_walk hwalk
    · cases hplaces

theorem follows_url (chain : Chain) : Follows P (chain.reverse.map Request.url) (url chain) := by
  rw [List.map_eq_flatMap]
  exact (Follows.foldlM (fun _ q => (Follows.expand q.url).map fun _ => .pure _) _ _).map fun _ => .pure _

theorem follows_nearest {α β : Type} {field : Request → Option α} {compile : Option String → α → Resolve β}
    {texts : α → List String} {chain : Chain}
    (h : ∀ source x, chain.findSome? field = some x → Follows P (texts x) (compile source x)) :
    Follows P ((chain.findSome? field).elim [] texts) (nearest field compile chain) := by
  unfold nearest
  split
  · rename_i hnone
    have hx : chain.findSome? field = none := by simpa [List.findSome?_eq_none_iff] using hnone
    rw [hx]
    exact .pure none
  · rename_i source x hfound
    have hx : chain.findSome? field = some x := by
      obtain ⟨nearer, q, farther, hchain, hq, hnearer⟩ := List.findSome?_eq_some_iff.mp hfound
      obtain ⟨x', hx, hpair⟩ := Option.map_eq_some_iff.mp hq
      cases hpair
      exact List.findSome?_eq_some_iff.mpr ⟨nearer, q, farther, hchain, hx,
        fun p hp => by simpa using hnearer p hp⟩
    rw [hx]
    exact (h source x hx).map fun _ => .pure _

theorem follows_headers (defaults : List (String × String)) (chain : Chain) :
    Follows P ((defaults ++ chain.reverse.flatMap Request.headers).flatMap fun e => [e.1, e.2])
      (headers defaults chain) := by
  rw [List.flatMap_append]
  refine .bind (.foldlM (fun h entry => ?_) _ _) fun start => .foldlM (fun h entry => ?_) _ _
  · exact (Follows.expand entry.1).bind fun _ => (Follows.expand entry.2).map fun _ => .pure _
  · exact (Follows.expand entry.1).bind fun _ => (Follows.expand entry.2).map fun _ => .pure _

theorem follows_query (chain : Chain) :
    Follows P ((chain.reverse.flatMap Request.queries).flatMap fun e => [e.1, e.2]) (query chain) :=
  .foldlM (fun _ entry => (Follows.expand entry.1).bind fun _ => (Follows.expand entry.2).map fun _ => .pure _) _ _

theorem follows_proxy (chain : Chain) :
    Follows P ((chain.reverse.flatMap Request.tags).flatMap tagTexts) (proxy chain) := by
  refine .foldlM (fun p tag => ?_) _ _
  unfold tagTexts
  dsimp only
  by_cases hhttp : tag.1 = "http.proxy"
  · rw [if_pos hhttp, if_pos (.inl hhttp)]
    exact (Follows.expand tag.2).map fun _ => .pure _
  · rw [if_neg hhttp]
    by_cases hhttps : tag.1 = "https.proxy"
    · rw [if_pos hhttps, if_pos (.inr hhttps)]
      exact (Follows.expand tag.2).map fun _ => .pure _
    · rw [if_neg hhttps, if_neg (by tauto)]
      exact .pure _

/-- The resolver with which the first text of a chain is expanded. -/
def prepared (updates : Script → List (String × String)) (chain : Chain) (r : Resolver) : Resolver :=
  match chain with
  | [] => r
  | child :: _ =>
    ((script? child chain).elim [] updates).foldl (fun r e => r.addCommandLine e.1 e.2)
      (if chain.any (·.flags.insecure) then r.enableCommands else r)

theorem prepared_frame (updates : Script → List (String × String)) (chain : Chain) (r : Resolver) :
    (prepared updates chain r).lenient = r.lenient ∧ (prepared updates chain r).failures = r.failures := by
  have hset (entries : List (String × String)) (r : Resolver) :
      (entries.foldl (fun r e => r.addCommandLine e.1 e.2) r).lenient = r.lenient ∧
        (entries.foldl (fun r e => r.addCommandLine e.1 e.2) r).failures = r.failures := by
    induction entries generalizing r with
    | nil => exact ⟨rfl, rfl⟩
    | cons e rest ih => exact ih (r.addCommandLine e.1 e.2)
  cases chain with
  | nil => exact ⟨rfl, rfl⟩
  | cons child ancestors =>
    obtain ⟨hlenient, hfailures⟩ := hset ((script? child (child :: ancestors)).elim [] updates)
      (if (child :: ancestors).any (·.flags.insecure) then r.enableCommands else r)
    refine ⟨hlenient.trans ?_, hfailures.trans ?_⟩
    · split <;> rfl
    · split <;> rfl

theorem on_prepare (updates : Script → List (String × String)) (child : Request) (ancestors : List Request)
    (r : Resolver) :
    on (prepare (fun s => .ok (updates s)) ((child :: ancestors).any (·.flags.insecure))
      (script? child (child :: ancestors))) r = (.ok ⟨⟩, prepared updates (child :: ancestors) r) := by
  simp only [prepare, prepared]
  generalize (child :: ancestors).any (·.flags.insecure) = insecure, script? child (child :: ancestors) = script
  cases insecure <;> cases script <;> rfl

/-- Once the chain is known, a compilation is a plan through its texts. -/
theorem exists_plan (fs : Files) (defaults : List (String × String)) (updates : Script → List (String × String))
    {requests : List Request} {target : String} {chain : Chain} (h : chainOf requests target = .ok chain) :
    ∃ plan : Plan Definition,
      plan.Asks (∃ p, chain.findSome? Request.payload = some p ∧ p.computes) (texts defaults chain) ∧
      ∀ r, on (Compile.target fs requests defaults updates target) r = on plan.run (prepared updates chain r) := by
  obtain ⟨index, hindex, h⟩ := bind_eq_ok.mp h
  obtain ⟨places, hplaces, h⟩ := bind_eq_ok.mp h
  obtain rfl : places.filterMap (requests[·]?) = chain := Except.ok.inj h
  simp only [Compile.target, targetWith, on_ofExcept_bind hindex, on_ofExcept_bind hplaces]
  cases places.filterMap (requests[·]?) with
  | nil => exact ⟨.done (.error (.targetNotFound target)), .failed rfl _, fun _ => rfl⟩
  | cons child ancestors =>
    have hprepared {x : Resolve Unit} {f : Unit → Resolve Definition} {Q : Prop} {asked : List String}
        (hx : ∀ r, on x r = (.ok ⟨⟩, prepared updates (child :: ancestors) r)) (hf : Follows Q asked (f ⟨⟩)) :
        ∃ plan : Plan Definition, plan.Asks Q asked ∧
          ∀ r, on (x >>= f) r = on plan.run (prepared updates (child :: ancestors) r) := by
      obtain ⟨plan, hrun, hasks⟩ := hf
      exact ⟨plan, hasks, fun r => by rw [on_bind_of_ok (hx r), hrun]⟩
    refine hprepared (on_prepare updates child ancestors) ?_
    simp only [texts, List.flatten_cons, List.flatten_nil, List.append_nil]
    refine (follows_url _).bind fun url => .bind (follows_nearest fun source p hp => ?_) fun payload => ?_
    · exact (p.follows_expand fs source).mono fun hcomputes => ⟨p, hp, hcomputes⟩
    refine (follows_headers ..).bind fun headers => (follows_query _).bind fun query => ?_
    refine .bind (follows_nearest fun source a _ => a.follows_expand fs url source) fun auth => ?_
    refine .bind (follows_nearest fun source c _ => c.follows_expand fs source) fun certificate => ?_
    refine (follows_proxy _).bind fun proxy => .map (follows_nearest fun source path _ => ?_) fun output => .pure _
    exact (Follows.expand path).map fun _ => .pure _

theorem on_target_of_error (fs : Files) (defaults : List (String × String)) (updates : Script → List (String × String))
    {requests : List Request} {target : String} {f : Failure} (h : chainOf requests target = .error f) (r : Resolver) :
    on (Compile.target fs requests defaults updates target) r = (.error f, r) := by
  rw [Compile.target, targetWith]
  rcases bind_eq_error.mp h with hselect | ⟨index, hindex, hwalk⟩
  · rw [hselect]
    rfl
  · rw [on_ofExcept_bind hindex]
    rcases bind_eq_error.mp hwalk with hplaces | ⟨places, -, hplaces⟩
    · rw [hplaces]
      rfl
    · cases hplaces

/-- Compiling with a lenient resolver. By which plan a definition comes about depends on no property; a property
counts by what becomes of the texts of the chain. They are expanded in turn, and what is in the way of each is taken down
and nothing else is: a text with unknown names stands as it is, and so does each hole in conflict. No failure for a
name comes out but for unknown names in arithmetic, which the payload that counts must hold. -/
theorem lenient_target (fs : Files) (requests : List Request) (defaults : List (String × String))
    (updates : Script → List (String × String)) (target : String) :
    ∃ plan : Plan Definition, ∀ r : Resolver, r.lenient →
      let run := on (Compile.target fs requests defaults updates target) r
      let outcome := run.2.settle run.1
      (∀ key, outcome ≠ .error (.propertyConflict key)) ∧
      (∀ names file, outcome = .error (.propertyNotFound names file) →
        ∃ chain p, chainOf requests target = .ok chain ∧ chain.findSome? Request.payload = some p ∧ p.computes) ∧
      (∀ f, chainOf requests target = .error f → run = (.error f, r)) ∧
      ∀ chain, chainOf requests target = .ok chain → ¬run.2.ended →
        run = on plan.run (prepared updates chain r) ∧
        ∃ es : List Expansion, History (prepared updates chain r) es run.2 ∧ (∀ e ∈ es, e.Spared) ∧
          plan.Gives (es.map (·.expanded)) outcome ∧
          run.2.failures = r.failures ++ es.filterMap Expansion.problem? ∧
          es.map (·.text) <+: texts defaults chain ∧
          ∀ d, outcome = .ok d → es.map (·.text) = texts defaults chain := by
  cases hchain : chainOf requests target with
  | error e =>
    refine ⟨.done (.error e), fun r hr => ?_⟩
    intro run outcome
    have hrun : run = (.error e, r) := on_target_of_error fs defaults updates hchain r
    have hfails (f : Failure) (hf : outcome = .error f) : f.isOfName = false := by
      rcases settle_eq_error hf with rfl | hf
      · rfl
      · rw [hrun] at hf
        cases hf
        exact not_isOfName_of_chainOf hchain
    refine ⟨fun key hkey => ?_, fun names file h => ?_, fun f hf => ?_, nofun⟩
    · cases hfails _ hkey
    · cases hfails _ h
    · cases hf
      exact hrun
  | ok chain =>
    obtain ⟨plan, hasks, hplan⟩ := exists_plan fs defaults updates hchain
    refine ⟨plan, fun r hr => ?_⟩
    intro run outcome
    obtain ⟨hlenient, hfailures⟩ := prepared_frame updates chain r
    have hrun : run = on plan.run (prepared updates chain r) := hplan r
    obtain ⟨es, hhistory, hspared, hgives, hnoted, hprefix, hall, hnames⟩ := hasks.on_run (hlenient.trans hr)
    rw [← hrun] at hhistory hgives hnoted hall hnames
    have hfails (f : Failure) (hf : outcome = .error f) (hof : f.isOfName) :
        (∃ p, chain.findSome? Request.payload = some p ∧ p.computes) ∧ f.IsUnknown := by
      rcases settle_eq_error hf with rfl | hf
      · cases hof
      · exact hnames f hf hof
    refine ⟨fun key hkey => ?_, fun names file h => ?_, nofun, fun chain' hchain' hends => ?_⟩
    · obtain ⟨-, names, file, h⟩ := hfails _ hkey rfl
      cases h
    · obtain ⟨⟨p, hp, hcomputes⟩, -⟩ := hfails _ h rfl
      exact ⟨chain, p, rfl, hp, hcomputes⟩
    · obtain rfl : chain = chain' := Except.ok.inj hchain'
      have houtcome : outcome = run.1 := settle_of_not_ended hends _
      rw [houtcome]
      exact ⟨hrun, es, hhistory, hspared, hgives, by rw [hnoted, hfailures], hprefix, hall⟩

/-- An address keeps a name that nobody knows, and arithmetic with another one ends the compilation. -/
theorem lenient_target_arithmetic :
    let r : Resolver := { lenient := true, surroundings := ⟨fun _ => none, fun _ => none, 0⟩, draws := ⟨id, 0⟩ }
    let request (payload : Option PayloadTerm) : Request := { url := "http://\x7b\x7bh\x7d\x7d", payload }
    let run (payload : Option PayloadTerm) :=
      on (Compile.target ⟨[], []⟩ [request payload] [] (fun _ => []) "1") r
    let unknown := Failure.propertyNotFound ["h"] "not specified"
    r.lenient ∧ (run none).1.toOption.map Definition.url = some "http://\x7b\x7bh\x7d\x7d" ∧
      (run none).2.failures = [unknown] ∧
      (run (some (.json (.arithmetic "x + 1")))).1 = .error (.propertyNotFound ["x"] "not specified") ∧
      ∃ chain p, chainOf [request (some (.json (.arithmetic "x + 1")))] "1" = .ok chain ∧
        chain.findSome? Request.payload = some p ∧ p.computes := by
  intro r request run unknown
  have hstops : (match (run (some (.json (.arithmetic "x + 1")))).1 with
      | .error f => some f
      | .ok _ => none) = some (.propertyNotFound ["x"] "not specified") := by decide +kernel
  have hresult : (run (some (.json (.arithmetic "x + 1")))).1 =
      .error (.propertyNotFound ["x"] "not specified") := by
    split at hstops
    · rename_i f hf
      rw [hf, Option.some.inj hstops]
    · cases hstops
  have hends : ¬(run (some (.json (.arithmetic "x + 1")))).2.ended := by decide +kernel
  obtain ⟨plan, hplan⟩ := lenient_target ⟨[], []⟩ [request (some (.json (.arithmetic "x + 1")))] [] (fun _ => []) "1"
  exact ⟨rfl, by decide +kernel, by decide +kernel, hresult,
    (hplan r rfl).2.1 _ _ ((settle_of_not_ended hends _).trans hresult)⟩

end Compile
end RequestLang

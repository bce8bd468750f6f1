import RequestLang.Proofs.Property.Substitution

/-! Steps that know the properties only by the texts that they expand and the arithmetic that they
compute. A lenient run of such a step has a history of expansions, and the problems of these are what
it takes down. -/
namespace RequestLang

/-- The failure is about a name that nobody knows, or whose defaults differ. -/
def Failure.isOfName : Failure → Bool
  | .propertyNotFound .. | .propertyConflict _ => true
  | _ => false

/-- The failure is about names that nobody knows. -/
def Failure.IsUnknown (f : Failure) : Prop := ∃ names file, f = .propertyNotFound names file

/-- What a step does with the texts that it asks for. -/
inductive Plan (α : Type) where
  | done (outcome : Except Failure α)
  | expand (text : String) (next : String → Plan α)
  | compute (text expanded : String) (next : Json → Plan α)

namespace Plan
variable {α β : Type} {P Q : Prop} {texts more : List String}

def run : Plan α → Resolve α
  | done outcome => Resolve.ofExcept outcome
  | expand text next => Resolve.expand text >>= fun expanded => (next expanded).run
  | compute text expanded next => Resolve.finishArithmetic text expanded >>= fun value => (next value).run

def bind (f : α → Plan β) : Plan α → Plan β
  | done (.ok a) => f a
  | done (.error e) => done (.error e)
  | expand text next => expand text fun expanded => (next expanded).bind f
  | compute text expanded next => compute text expanded fun value => (next value).bind f

theorem run_bind (f : α → Plan β) (c : Plan α) : (c.bind f).run = c.run >>= fun a => (f a).run := by
  induction c with
  | done outcome => cases outcome <;> rfl
  | expand text next ih => simp only [bind, run, ih, bind_assoc]
  | compute text expanded next ih => simp only [bind, run, ih, bind_assoc]

/-- The texts that a plan expands, whatever becomes of them. Only a failure that is not about names
cuts them short, and arithmetic is computed only if `P` holds. -/
inductive Asks (P : Prop) : List String → Plan α → Prop
  | done (a : α) : Asks P [] (done (.ok a))
  | failed {f : Failure} (hf : f.isOfName = false) (texts : List String) : Asks P texts (done (.error f))
  | expand {text : String} {texts : List String} {next : String → Plan α}
      (hnext : ∀ expanded, Asks P texts (next expanded)) : Asks P (text :: texts) (expand text next)
  | compute {text expanded : String} {texts : List String} {next : Json → Plan α} (hP : P)
      (hnext : ∀ value, Asks P texts (next value)) : Asks P texts (compute text expanded next)

/-- What comes out of a plan if its texts become these. A computation gives any value, or fails. -/
inductive Gives : Plan α → List String → Except Failure α → Prop
  | done (outcome : Except Failure α) : Gives (done outcome) [] outcome
  | expand {text expanded : String} {rest : List String} {next : String → Plan α} {outcome : Except Failure α}
      (hnext : Gives (next expanded) rest outcome) : Gives (expand text next) (expanded :: rest) outcome
  | computed {text expanded : String} {rest : List String} {next : Json → Plan α} {outcome : Except Failure α}
      (value : Json) (hnext : Gives (next value) rest outcome) : Gives (compute text expanded next) rest outcome
  | stopped {text expanded : String} {next : Json → Plan α} (f : Failure) :
      Gives (compute text expanded next) [] (.error f)

namespace Asks

theorem mono {c : Plan α} (h : c.Asks P texts) (hPQ : P → Q) : c.Asks Q texts := by
  induction h with
  | done a => exact .done a
  | failed hf texts => exact .failed hf texts
  | expand _ ih => exact .expand ih
  | compute hP _ ih => exact .compute (hPQ hP) ih

theorem bind {c : Plan α} {f : α → Plan β} (h : c.Asks P texts) (hf : ∀ a, (f a).Asks P more) :
    (c.bind f).Asks P (texts ++ more) := by
  induction h with
  | done a => exact hf a
  | failed he texts => exact .failed he (texts ++ more)
  | expand _ ih => exact .expand ih
  | compute hP _ ih => exact .compute hP ih

end Asks
end Plan

/-- An expansion that took place: who met which text, and what was made of it. -/
structure Expansion where
  before : Resolver
  text : String
  expanded : String

namespace Expansion

def segments (e : Expansion) : List Segment := Segment.ofText e.text.toList

/-- The resolver when the defaults of the text are recorded. -/
def recorded (e : Expansion) : Resolver := e.before.recorded e.segments

def unknown (e : Expansion) : List String := e.recorded.unknown e.segments

/-- What is in the way of the text: all its unknown names, or else the first name in conflict. A strict
resolver fails with it. -/
def problem? (e : Expansion) : Option Failure :=
  match e.unknown with
  | [] => ((Segment.names e.segments).find? e.recorded.inConflict).map .propertyConflict
  | names => some (e.before.notFound names)

theorem problem?_of_unknown {e : Expansion} (h : e.unknown ≠ []) : e.problem? = some (e.before.notFound e.unknown) := by
  unfold problem?
  cases hm : e.unknown with
  | nil => exact absurd hm h
  | cons name names => rfl

theorem problem?_of_known {e : Expansion} (h : e.unknown = []) :
    e.problem? = ((Segment.names e.segments).find? e.recorded.inConflict).map .propertyConflict := by
  unfold problem?
  rw [h]

/-- The text stands as it is where a name is unknown. Else holes in conflict stand as they are, and all
others are filled. -/
structure Spared (e : Expansion) : Prop where
  lenient : e.before.lenient
  missing : e.unknown ≠ [] → e.expanded = e.text
  filled : e.unknown = [] →
    ∃ d, e.recorded.Fills e.recorded.draws (e.recorded.leaving e.segments) e.expanded.toList d

end Expansion

/-- Expansions that follow one another, each with the resolver that the one before left. Only
arithmetic comes between them, which may overflow. -/
inductive History : Resolver → List Expansion → Resolver → Prop
  | done (r : Resolver) : History r [] r
  | expand {r s r' : Resolver} {text expanded : String} {es : List Expansion}
      (hrun : Resolve.on (Resolve.expand text) r = (.ok expanded, s)) (hrest : History s es r') :
      History r (⟨r, text, expanded⟩ :: es) r'
  | compute {r r' : Resolver} {es : List Expansion} (o : Bool) (hrest : History { r with overflowed := o } es r') :
      History r es r'

namespace Resolve
open Resolver
variable {α β : Type} {P Q : Prop} {texts more : List String} {r : Resolver}

theorem on_failOr_of_lenient (hr : r.lenient) (f : Failure) (a : α) :
    on (failOr f a) r = (.ok a, { r with failures := r.failures ++ [f] }) := by
  unfold failOr
  rw [on_bind, on_get, andThen_ok, if_pos hr]
  rfl

/-- A lenient expansion gives a text and takes down what was in the way. -/
theorem expand_lenient (hr : r.lenient) (text : String) :
    ∃ expanded s, on (expand text) r = (.ok expanded, s) ∧ Expansion.Spared ⟨r, text, expanded⟩ ∧ s.lenient ∧
      s.failures = r.failures ++ (Expansion.problem? ⟨r, text, expanded⟩).toList := by
  obtain ⟨entries, d, hrecorded⟩ := recorded_frame r (Segment.ofText text.toList)
  have hlenient : (r.recorded (Segment.ofText text.toList)).lenient = true := by simp only [hrecorded, hr]
  have hfailures : (r.recorded (Segment.ofText text.toList)).failures = r.failures := by simp only [hrecorded]
  obtain ⟨hunknown, hknown⟩ := on_expand r (Segment.splits_ofText text.toList)
  by_cases hm : (r.recorded (Segment.ofText text.toList)).unknown (Segment.ofText text.toList) = []
  · obtain ⟨cs, d', o, hfills, hrun, -⟩ := hknown hm
    have hspared : Expansion.Spared ⟨r, text, String.ofList cs⟩ := by
      refine ⟨hr, fun h => absurd hm h, fun _ => ⟨d', ?_⟩⟩
      rw [String.toList_ofList]
      exact hfills
    have hproblem : Expansion.problem? ⟨r, text, String.ofList cs⟩ = ((Segment.names (Segment.ofText text.toList)).find?
        (r.recorded (Segment.ofText text.toList)).inConflict).map .propertyConflict := Expansion.problem?_of_known hm
    rw [← hfailures]
    cases hc : (Segment.names (Segment.ofText text.toList)).find? (r.recorded (Segment.ofText text.toList)).inConflict with
    | some key =>
      rw [hc] at hrun hproblem
      exact ⟨_, _, hrun.trans (on_failOr_of_lenient (by exact hlenient) _ _), hspared, hlenient, by rw [hproblem]; rfl⟩
    | none =>
      rw [hc] at hrun hproblem
      exact ⟨_, _, hrun, hspared, hlenient, by simp [hproblem]⟩
  · have hproblem : Expansion.problem? ⟨r, text, text⟩ = some (r.notFound _) := Expansion.problem?_of_unknown hm
    refine ⟨text, _, (hunknown hm).trans (on_failOr_of_lenient hlenient _ _), ⟨hr, fun _ => rfl, fun h => absurd h hm⟩,
      hlenient, ?_⟩
    rw [hproblem, ← hfailures]
    rfl

theorem finishArithmetic_frame (text expanded : String) (r : Resolver) :
    ∃ o, (on (finishArithmetic text expanded) r).2 = { r with overflowed := o } ∧
      ∀ f, (on (finishArithmetic text expanded) r).1 = .error f → f.isOfName → f.IsUnknown := by
  obtain ⟨out, unknown, h⟩ := Substituted.exists_substituted r.value? none expanded.toList
  rw [on_finishArithmetic h]
  split
  · split
    · exact ⟨_, rfl, nofun⟩
    · refine ⟨_, rfl, fun f hf hof => ?_⟩
      cases hf
      cases hof
  · refine ⟨_, rfl, fun f hf _ => ?_⟩
    cases hf
    exact ⟨_, _, rfl⟩

end Resolve

open Resolve in
/-- A lenient run of a plan. Its expansions follow one another, each spares its text, their problems are what is
taken down, and the outcome is made of what they give. They are of the texts that the plan asks for, all of them
unless a failure comes before the end. A failure for names comes from arithmetic alone, and for unknown ones. -/
theorem Plan.Asks.on_run {α : Type} {P : Prop} {texts : List String} {c : Plan α} (h : c.Asks P texts)
    {r : Resolver} (hr : r.lenient) :
    ∃ es, History r es (on c.run r).2 ∧ (∀ e ∈ es, e.Spared) ∧ c.Gives (es.map (·.expanded)) (on c.run r).1 ∧
      (on c.run r).2.failures = r.failures ++ es.filterMap Expansion.problem? ∧
      es.map (·.text) <+: texts ∧ (∀ a, (on c.run r).1 = .ok a → es.map (·.text) = texts) ∧
      ∀ f, (on c.run r).1 = .error f → f.isOfName → P ∧ f.IsUnknown := by
  induction h generalizing r with
  | done a => exact ⟨[], .done r, by simp, .done _, (List.append_nil _).symm, by simp, by simp, nofun⟩
  | @failed f hf texts =>
    refine ⟨[], .done r, by simp, .done _, (List.append_nil _).symm, by simp, nofun, fun e he hof => ?_⟩
    cases he
    rw [hf] at hof
    cases hof
  | @expand text texts next _ ih =>
    obtain ⟨expanded, s, hrun, hspared, hs, hfailures⟩ := expand_lenient hr text
    obtain ⟨es, hhistory, hall, hgives, hnoted, hprefix, htexts, hnames⟩ := ih expanded hs
    rw [run, on_bind_of_ok hrun]
    refine ⟨⟨r, text, expanded⟩ :: es, .expand hrun hhistory, List.forall_mem_cons.mpr ⟨hspared, hall⟩, .expand hgives,
      ?_, List.cons_prefix_cons.mpr ⟨rfl, hprefix⟩, fun a ha => congrArg (text :: ·) (htexts a ha), hnames⟩
    rw [hnoted, hfailures, List.append_assoc, List.filterMap_cons]
    cases Expansion.problem? ⟨r, text, expanded⟩ <;> rfl
  | @compute text expanded texts next hP _ ih =>
    obtain ⟨o, hframe, hunknown⟩ := finishArithmetic_frame text expanded r
    rw [run, on_bind]
    rcases hrun : on (finishArithmetic text expanded) r with ⟨f | value, s⟩
    · obtain rfl : s = { r with overflowed := o } := by rw [← hframe, hrun]
      refine ⟨[], .compute o (.done _), by simp, .stopped f, by simp, by simp, nofun, fun e he hof => ⟨hP, ?_⟩⟩
      obtain rfl : f = e := Except.error.inj he
      exact hunknown f (by rw [hrun]) hof
    · obtain rfl : s = { r with overflowed := o } := by rw [← hframe, hrun]
      obtain ⟨es, hhistory, hall, hgives, hnoted, hrest⟩ := ih value (r := { r with overflowed := o }) hr
      exact ⟨es, .compute o hhistory, hall, .computed value hgives, hnoted, hrest⟩

/-- The step is a plan that asks for these texts. -/
def Resolve.Follows {α : Type} (P : Prop) (texts : List String) (x : Resolve α) : Prop :=
  ∃ c : Plan α, c.run = x ∧ c.Asks P texts

namespace Resolve.Follows
variable {α β : Type} {P Q : Prop} {texts more : List String}

theorem mono {x : Resolve α} (h : Follows P texts x) (hPQ : P → Q) : Follows Q texts x := by
  obtain ⟨c, hrun, hasks⟩ := h
  exact ⟨c, hrun, hasks.mono hPQ⟩

theorem pure (a : α) : Follows P [] (Pure.pure a : Resolve α) := ⟨.done (.ok a), rfl, .done a⟩

theorem throw {f : Failure} (hf : f.isOfName = false) (texts : List String) :
    Follows P texts (MonadExcept.throw f : Resolve α) := ⟨.done (.error f), rfl, .failed hf texts⟩

theorem bind {x : Resolve α} {f : α → Resolve β} (hx : Follows P texts x) (hf : ∀ a, Follows P more (f a)) :
    Follows P (texts ++ more) (x >>= f) := by
  obtain ⟨c, rfl, hasks⟩ := hx
  choose next hrun hnext using hf
  exact ⟨c.bind next, by simp only [Plan.run_bind, hrun], hasks.bind hnext⟩

/-- A last step that expands nothing. -/
theorem map {x : Resolve α} {f : α → Resolve β} (hx : Follows P texts x) (hf : ∀ a, Follows P [] (f a)) :
    Follows P texts (x >>= f) := by
  simpa using hx.bind hf

theorem expand (text : String) : Follows P [text] (Resolve.expand text) :=
  ⟨.expand text fun expanded => .done (.ok expanded), bind_pure _, .expand fun expanded => .done expanded⟩

theorem evaluateArithmetic (text : String) : Follows True [text] (evaluateArithmetic text) := by
  have hfinish (expanded : String) : Follows True [] (finishArithmetic text expanded) :=
    ⟨.compute text expanded fun value => .done (.ok value), bind_pure _, .compute trivial fun value => .done value⟩
  exact (expand text).map hfinish

theorem ite {c : Prop} [Decidable c] {x y : Resolve α} (hx : Follows P texts x) (hy : Follows P texts y) :
    Follows P texts (if c then x else y) := by
  split
  · exact hx
  · exact hy

theorem mapM {f : α → Resolve β} {texts : α → List String} (h : ∀ a, Follows P (texts a) (f a)) (xs : List α) :
    Follows P (xs.flatMap texts) (xs.mapM f) := by
  induction xs with
  | nil => exact pure []
  | cons a xs ih =>
    rw [List.mapM_cons, List.flatMap_cons]
    exact (h a).bind fun b => ih.map fun bs => pure (b :: bs)

theorem foldlM {f : β → α → Resolve β} {texts : α → List String} (h : ∀ b a, Follows P (texts a) (f b a)) (xs : List α)
    (b : β) : Follows P (xs.flatMap texts) (xs.foldlM f b) := by
  induction xs generalizing b with
  | nil => exact pure b
  | cons a xs ih =>
    rw [List.foldlM_cons, List.flatMap_cons]
    exact (h b a).bind fun b' => ih b'

end Resolve.Follows
end RequestLang

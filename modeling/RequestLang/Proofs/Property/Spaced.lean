import RequestLang.Proofs.Property.Plan

/-! Words with gaps between them: what an expansion and the values of names make of them does not depend on the gaps. -/
namespace RequestLang
open Lexer Arith

namespace Resolver

/-- What stands for a piece of a text after its expansion. -/
inductive Stands (r : Resolver) : Segment → List Char → Prop
  | written (s : Segment) : Stands r s s.chars
  | value {body v : List Char} {d d' : Draws} (hv : r.Yields (Placeholder.ofBody body).key d v d') :
      Stands r (.hole body) v

theorem stands_of_fills {r r' : Resolver} {s : Segment} {d d' : Draws} {out : List Char}
    (h : Fills r d (r'.leaving [s]) out d') : r.Stands s out := by
  have hnil {out : List Char} {d d' : Draws} (h : Fills r d [] out d') : out = [] := by
    cases h
    rfl
  cases s with
  | plain cs =>
    change Fills r d (.plain cs :: r'.leaving []) out d' at h
    rw [Fills.plain_iff] at h
    obtain ⟨text, rfl, hrest⟩ := h
    rw [hnil hrest, List.append_nil]
    exact .written (.plain cs)
  | hole body =>
    rw [leaving_hole] at h
    split at h
    · rw [Fills.plain_iff] at h
      obtain ⟨text, rfl, hrest⟩ := h
      rw [hnil hrest, List.append_nil]
      exact .written (.hole body)
    · cases h with
      | nameless _ hrest =>
        rw [hnil hrest, List.append_nil]
        exact .written (.hole body)
      | named _ hv hrest =>
        rw [hnil hrest, List.append_nil]
        exact .value hv

end Resolver

/-- The pieces of words that each have a gap before them. -/
def Segment.laid {α : Type} (gap : α → List Char) (word : α → Segment) (xs : List α) : List Segment :=
  xs.flatMap fun x => [.plain (gap x), word x]

namespace Segment
variable {α : Type} {gap : α → List Char} {word : α → Segment} {xs : List α}

theorem chars_laid : (laid gap word xs).flatMap chars = Arith.laid gap (fun x => (word x).chars) xs := by
  simp [laid, Arith.laid, List.flatMap_assoc, chars]

theorem filterMap_body?_laid : (laid gap word xs).filterMap body? = (xs.map word).filterMap body? := by
  induction xs with
  | nil => rfl
  | cons x xs ih =>
    rw [List.map_cons, List.filterMap_cons, ← ih]
    rfl

theorem names_laid : names (laid gap word xs) = names (xs.map word) := by
  rw [names, filterMap_body?_laid, names]

theorem whole_laid (hgap : ∀ x ∈ xs, ∀ c ∈ gap x, isBlank c) (hword : ∀ x ∈ xs, (word x).Whole) :
    ∀ s ∈ laid gap word xs, s.Whole := by
  intro s hs
  obtain ⟨x, hx, hs⟩ := List.mem_flatMap.mp hs
  rcases List.mem_cons.mp hs with rfl | hs
  · exact fun hbrace => absurd (hgap x hx _ hbrace) (by decide)
  · exact List.mem_singleton.mp hs ▸ hword x hx

end Segment

namespace Resolve
open Resolver
variable {α : Type} {r : Resolver} {word : α → Segment} {xs : List α}

/-- Whether a failure ends a run or is taken down does not depend on what goes on. -/
theorem on_failOr {β : Type} (r : Resolver) (f : Failure) :
    (∃ s, ∀ a : β, on (failOr f a) r = (.error f, s)) ∨
    ∃ s, s.value? = r.value? ∧ ∀ a : β, on (failOr f a) r = (.ok a, s) := by
  cases hlenient : r.lenient with
  | false =>
    refine .inl ⟨r, fun a => ?_⟩
    rw [failOr, on_bind, on_get, andThen_ok, hlenient]
    rfl
  | true => exact .inr ⟨{ r with failures := r.failures ++ [f] }, rfl, on_failOr_of_lenient hlenient f⟩

/-- Words are filled one after the other, whatever the gaps. -/
theorem on_expandSegments_laid (ha : ∀ key ∈ Segment.names (xs.map word), r.isAvailable key) (failed : Option Failure) :
    ∃ (zs : List (α × List Char)) (failed' : Option Failure) (d : Draws) (o : Bool),
      zs.map Prod.fst = xs ∧ (∀ z ∈ zs, r.Stands (word z.1) z.2) ∧
      ∀ gap : α → List Char, on (expandSegments (Segment.laid gap word xs) failed) r =
        (.ok (laid (fun z => gap z.1) Prod.snd zs, failed'), { r with draws := d, overflowed := o }) := by
  induction xs generalizing r failed with
  | nil => exact ⟨[], failed, r.draws, r.overflowed, rfl, nofun, fun gap => rfl⟩
  | cons x xs ih =>
    have hnames : Segment.names ((x :: xs).map word) = Segment.names [word x] ++ Segment.names (xs.map word) := by
      rw [List.map_cons, ← List.singleton_append, Segment.names, List.filterMap_append, List.map_append, List.filter_append]
      rfl
    rw [hnames, List.forall_mem_append] at ha
    obtain ⟨out, d, o, hrun, hfills, -⟩ := on_expandSegments ha.1 failed
    obtain ⟨zs, failed', d', o', hzs, hstands, hrest⟩ := ih (r := { r with draws := d, overflowed := o }) ha.2
      (failed.or (((Segment.names [word x]).find? r.inConflict).map .propertyConflict))
    refine ⟨(x, out) :: zs, failed', d', o', by rw [List.map_cons, hzs], ?_, fun gap => ?_⟩
    · refine List.forall_mem_cons.mpr ⟨stands_of_fills hfills, fun z hz => ?_⟩
      -- what is drawn does not change what may be drawn
      have hz := hstands z hz
      generalize word z.1 = s, z.2 = v at hz
      cases hz with
      | written s => exact .written s
      | value hv => exact .value (hv.draws r.draws r.overflowed)
    · rw [show Segment.laid gap word (x :: xs) = .plain (gap x) :: ([word x] ++ Segment.laid gap word xs) from rfl,
        expandSegments_plain, expandSegments_append]
      simp only [on_bind, hrun, andThen_ok, hrest gap, on_pure, laid_cons]

/-- What an expansion makes of words with gaps between them. It fails whatever the gaps, or leaves them as they are. -/
theorem on_expand_laid (r : Resolver) (hword : ∀ x ∈ xs, (word x).Whole) :
    let text (gap : α → List Char) := String.ofList (laid gap (fun x => (word x).chars) xs)
    let recorded := r.recorded (xs.map word)
    (∃ f s, ∀ gap : α → List Char, (∀ x ∈ xs, ∀ c ∈ gap x, isBlank c) → on (expand (text gap)) r = (.error f, s)) ∨
    ∃ (zs : List (α × List Char)) (s : Resolver), zs.map Prod.fst = xs ∧ (∀ z ∈ zs, recorded.Stands (word z.1) z.2) ∧
      s.value? = recorded.value? ∧
      ∀ gap : α → List Char, (∀ x ∈ xs, ∀ c ∈ gap x, isBlank c) →
        on (expand (text gap)) r = (.ok (String.ofList (laid (fun z => gap z.1) Prod.snd zs)), s) := by
  intro text recorded
  have hexpand (gap : α → List Char) (hgap : ∀ x ∈ xs, ∀ c ∈ gap x, isBlank c) : on (expand (text gap)) r =
      on (fill (recorded.unknown (xs.map word)) (text gap) (Segment.laid gap word xs)) recorded := by
    have h := on_expand_pieces r (Segment.whole_laid hgap hword)
    rwa [Segment.chars_laid, Resolver.recorded, Segment.filterMap_body?_laid, Resolver.unknown, Segment.names_laid] at h
  cases hunknown : recorded.unknown (xs.map word) with
  | cons name names =>
    have hrun (gap : α → List Char) (hgap : ∀ x ∈ xs, ∀ c ∈ gap x, isBlank c) : on (expand (text gap)) r =
        on (failOr (recorded.notFound (name :: names)) (text gap)) recorded := by
      rw [hexpand gap hgap, hunknown]
      rfl
    rcases on_failOr recorded (recorded.notFound (name :: names)) with ⟨s, hs⟩ | ⟨s, hvalue, hs⟩
    · exact .inl ⟨_, s, fun gap hgap => (hrun gap hgap).trans (hs _)⟩
    · refine .inr ⟨xs.map fun x => (x, (word x).chars), s, by simp [Function.comp_def], fun z hz => ?_, hvalue,
        fun gap hgap => ?_⟩
      · obtain ⟨x, -, rfl⟩ := List.mem_map.mp hz
        exact .written (word x)
      · rw [hrun gap hgap, hs]
        simp only [text, laid, List.flatMap_map]
  | nil =>
    obtain ⟨zs, failed, d, o, hzs, hstands, hrun⟩ := on_expandSegments_laid (isAvailable_of_unknown hunknown) none
    cases failed with
    | none =>
      refine .inr ⟨zs, { recorded with draws := d, overflowed := o }, hzs, hstands, rfl, fun gap hgap => ?_⟩
      rw [hexpand gap hgap, hunknown, fill, on_bind, hrun gap]
      rfl
    | some f =>
      have hrun (gap : α → List Char) (hgap : ∀ x ∈ xs, ∀ c ∈ gap x, isBlank c) : on (expand (text gap)) r =
          on (failOr f (String.ofList (laid (fun z => gap z.1) Prod.snd zs)))
            { recorded with draws := d, overflowed := o } := by
        rw [hexpand gap hgap, hunknown, fill, on_bind, hrun gap]
        rfl
      rcases on_failOr { recorded with draws := d, overflowed := o } f with ⟨s, hs⟩ | ⟨s, hvalue, hs⟩
      · exact .inl ⟨f, s, fun gap hgap => (hrun gap hgap).trans (hs _)⟩
      · exact .inr ⟨zs, s, hzs, hstands, hvalue, fun gap hgap => (hrun gap hgap).trans (hs _)⟩

namespace Substituted
variable {α : Type} {value? : String → Option String} {gap word out : α → List Char} {unknown : α → List String}
  {xs : List α} {before : Option Char} {cs o o' : List Char} {u u' : List String}

theorem unique {r : Resolver} (h : Substituted r.value? before cs o u) (h' : Substituted r.value? before cs o' u') :
    o = o' ∧ u = u' := by
  have hsame := h.on_substitute.symm.trans h'.on_substitute
  simpa using hsame

/-- Words between gaps are put right one by one where no two stand side by side that are no marks. -/
theorem laid (h : ∀ x ∈ xs, Substituted value? none (word x) (out x) (unknown x))
    (hgap : ∀ x ∈ xs, ∀ c ∈ gap x, isBlank c) (hmarks : xs.IsChain fun x y => IsMark (word x) ∨ IsMark (word y)) :
    Substituted value? none (laid gap word xs) (laid gap out xs) (xs.flatMap unknown) := by
  have hfront {gap rest o : List Char} {u : List String} (hblank : ∀ c ∈ gap, isBlank c)
      (hrest : Substituted value? none rest o u) : Substituted value? none (gap ++ rest) (gap ++ o) u := by
    by_cases hempty : gap = []
    · simpa [hempty] using hrest
    · exact (parts_of_isBlank hempty hblank).append hrest
  induction xs with
  | nil => exact .nil
  | cons x xs ih =>
    rw [List.forall_mem_cons] at h hgap
    have hrest := ih h.2 hgap.2 hmarks.tail
    rw [laid_cons, laid_cons, List.flatMap_cons]
    refine hfront hgap.1 ?_
    cases xs with
    | nil => simpa using h.1
    | cons y ys =>
      rw [List.isChain_cons_cons] at hmarks
      rcases hmarks.1 with hx | hy
      · obtain ⟨hout, hunknown⟩ := (parts_of_isMark hx).unique h.1
        rw [hout, hunknown]
        exact (parts_of_isMark hx).append hrest
      · have hstops : Stops Text.isNameChar (Arith.laid gap word (y :: ys)) := by
          rw [laid_cons]
          by_cases hempty : gap y = []
          · rw [hempty]
            exact (parts_of_isMark hy).stops _
          · exact (parts_of_isBlank hempty (hgap.2 y List.mem_cons_self)).stops _
        exact h.1.append hstops fun before => hrest.of_stops hstops

end Substituted

/-- What a piece comes to where all names have values. -/
inductive ComesTo (r : Resolver) : Segment → List Char → Prop
  | plain {cs out : List Char} (h : Substituted r.value? none cs out []) : ComesTo r (.plain cs) out
  | hole {body v out : List Char} {d d' : Draws} (hv : r.Yields (Placeholder.ofBody body).key d v d')
      (h : Substituted r.value? none v out []) : ComesTo r (.hole body) out

/-- A hole that stays is sealed by its braces. -/
theorem sealed_of_hole {r : Resolver} {body out : List Char} {unknown : List String}
    (h : Substituted r.value? none (Segment.hole body).chars out unknown) : Sealed out := by
  have hopen : Substituted.Parts ['\x7b', '\x7b'] := ⟨List.cons_ne_nil _ _, by simp [Text.isNameChar]⟩
  have hclose : Substituted.Parts ['\x7d', '\x7d'] := ⟨List.cons_ne_nil _ _, by simp [Text.isNameChar]⟩
  obtain ⟨o, u, hbody⟩ := Substituted.exists_substituted r.value? none body
  have hwhole : Substituted r.value? none (['\x7b', '\x7b'] ++ (body ++ ['\x7d', '\x7d']))
      (['\x7b', '\x7b'] ++ (o ++ ['\x7d', '\x7d'])) (u ++ []) :=
    hopen.append (hbody.append (by simp [Text.isNameChar]) fun before => hclose.self)
  obtain ⟨rfl, -⟩ := h.unique hwhole
  constructor
  · simp
  · simp
  · rw [← List.append_assoc, List.getLast?_append_of_ne_nil _ (List.cons_ne_nil _ _)]
    decide
  · rintro ⟨front, c, e, hsplit, -, he⟩
    have hlast := congrArg List.getLast? hsplit
    rw [← List.append_assoc, List.getLast?_append_of_ne_nil _ (List.cons_ne_nil _ _),
      List.getLast?_append_of_ne_nil _ (List.cons_ne_nil _ _)] at hlast
    obtain rfl : '\x7d' = e := by simpa using hlast
    rcases he with he | he <;> exact absurd he (by decide)

/-- Evaluations that leave the same resolver and give the same, or both find no value that can be computed. -/
inductive Concur : Except Failure Json × Resolver → Except Failure Json × Resolver → Prop
  | same (p : Except Failure Json × Resolver) : Concur p p
  | invalid (m m' : String) (r : Resolver) : Concur (.error (.payloadInvalid m), r) (.error (.payloadInvalid m'), r)

/-- Evaluations concur where what stands in the place of the names does. -/
theorem concur_of_substituted {r s : Resolver} {text text' : String} {cs cs' out out' : List Char} {unknown : List String}
    (hexpand : on (expand text) r = (.ok (String.ofList cs), s))
    (hexpand' : on (expand text') r = (.ok (String.ofList cs'), s))
    (h : Substituted s.value? none cs out unknown) (h' : Substituted s.value? none cs' out' unknown)
    (hout : unknown = [] → symbolsOf out = symbolsOf out') :
    Concur (on (evaluateArithmetic text) r) (on (evaluateArithmetic text') r) := by
  rw [on_evaluateArithmetic hexpand h, on_evaluateArithmetic hexpand' h']
  by_cases hm : s.undefined unknown = []
  · rw [if_pos hm, if_pos hm]
    by_cases hknown : unknown = []
    · have hvalue : Arith.evaluate (String.ofList out) = Arith.evaluate (String.ofList out') := by
        rw [Arith.evaluate, Arith.evaluate, String.toList_ofList, String.toList_ofList, valueOf_congr (hout hknown)]
      rw [hvalue]
      cases Arith.evaluate (String.ofList out') with
      | ok v => exact .same _
      | error f => exact .invalid _ _ _
    · -- the faults may differ, but no remainder is computed
      have hfault {cs : List Char} {f : Arith.Fault} (hf : symbolsOf cs = .error f) : s.noteFault f = s := by
        have hno := beq_eq_false_iff_ne.mpr (ne_remainderOverflow_of_symbolsOf hf)
        rw [Resolver.noteFault, hno, Bool.or_false]
      obtain ⟨f, hf⟩ := h.symbolsOf_eq_error hknown
      obtain ⟨f', hf'⟩ := h'.symbolsOf_eq_error hknown
      rw [evaluate_of_symbolsOf_error hf, evaluate_of_symbolsOf_error hf']
      simp only [hfault hf, hfault hf']
      exact .invalid _ _ _
  · rw [if_neg hm, if_neg hm]
    exact .same _

end Resolve
end RequestLang

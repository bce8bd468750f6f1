import RequestLang.Proofs.Property.Substitution

/-! Expressions as words: numbers, operators, and names that stand bare or in braces. -/
namespace RequestLang
open Lexer

namespace Arith

inductive Word where
  | number (digits : List Char)
  | name (braces : Bool) (n : String)
  | op (o : Op)
  | opening
  | closing
  | blank (c : Char)
  deriving DecidableEq, Repr

namespace Word

def segment : Word → Segment
  | number ds => .plain ds
  | name true n => .hole n.toList
  | name false n => .plain n.toList
  | op o => .plain o.mark.toList
  | opening => .plain ['(']
  | closing => .plain [')']
  | blank c => .plain [c]

def chars (w : Word) : List Char := w.segment.chars

/-- The text of words that stand one behind the other. -/
def text (ws : List Word) : String := String.ofList (ws.flatMap chars)

/-- A number is one as a whole, and a name begins with a letter or an underscore. -/
def spelled : Word → Bool
  | number ds => ds.head?.any isNumberChar && numberLength ds == ds.length
  | name _ n => isHeaded Text.isNameChar n.toList
  | blank c => isBlank c
  | _ => true

def isOperand : Word → Bool
  | number _ | name .. => true
  | _ => false

/-- No two operands stand side by side. -/
def Separate (ws : List Word) : Prop := ws.IsChain fun a b => !(a.isOperand && b.isOperand)

/-- The names that stand in braces. -/
def braced (ws : List Word) : List String :=
  ws.filterMap fun
    | name true n => some n
    | _ => none

/-- The names that stand bare. -/
def bare (ws : List Word) : List String :=
  ws.filterMap fun
    | name false n => some n
    | _ => none

/-- A word with its value, if it is a name in braces. -/
def filled (value? : String → Option String) : Word → List Char
  | name true n => ((value? n).map String.toList).getD []
  | w => w.chars

variable {w : Word} {ws : List Word}

theorem spelled_number {ds : List Char} (h : (number ds).spelled) :
    ∃ c tail, ds = c :: tail ∧ isNumberChar c ∧ numberLength ds = ds.length := by
  cases ds with
  | nil => cases h
  | cons c tail =>
    simp only [spelled, List.head?_cons, Option.any_some, Bool.and_eq_true, beq_iff_eq] at h
    exact ⟨c, tail, rfl, h⟩

theorem not_exposed_number {ds : List Char} (h : (number ds).spelled) (before : Option Char) : ¬Resolve.Exposed before ds := by
  obtain ⟨c, tail, rfl, hc, hlength⟩ := spelled_number h
  intro hexposed
  rw [← List.append_nil (c :: tail)] at hexposed
  obtain ⟨before, hnil⟩ := exposed_of_number hc (by rwa [List.append_nil]) hexposed
  cases hnil

/-- A word opens no hole that it does not close. -/
theorem whole_segment (h : w.spelled) : w.segment.Whole := by
  cases w with
  | number ds =>
    obtain ⟨c, tail, -, -, hlength⟩ := spelled_number h
    intro hmem
    rw [← List.append_nil ds] at hlength
    rcases mem_numeral (hlength.trans (by rw [List.append_nil])) _ hmem with hc | hc <;> exact absurd hc (by decide)
  | name braces n =>
    cases braces with
    | true => exact whole_of_isHeaded h
    | false => exact fun hmem => absurd (isNameChar_of_isHeaded h _ hmem) (by decide)
  | op o => cases o <;> simp [segment, Segment.Whole, Op.mark]
  | opening => simp [segment, Segment.Whole]
  | closing => simp [segment, Segment.Whole]
  | blank c =>
    rintro hmem
    obtain rfl := List.mem_singleton.mp hmem
    exact absurd h (by decide)

theorem filterMap_body?_segment (ws : List Word) :
    (ws.map segment).filterMap Segment.body? = (braced ws).map String.toList := by
  induction ws with
  | nil => rfl
  | cons w ws ih =>
    cases w with
    | name braces n =>
      cases braces with
      | true => exact congrArg (n.toList :: ·) ih
      | false => exact ih
    | _ => exact ih

theorem mem_braced {n : String} : n ∈ braced ws ↔ name true n ∈ ws := by
  simp only [braced, List.mem_filterMap]
  constructor
  · rintro ⟨w, hw, hname⟩
    split at hname
    · cases hname
      exact hw
    · cases hname
  · exact fun h => ⟨_, h, rfl⟩

theorem mem_bare {n : String} : n ∈ bare ws ↔ name false n ∈ ws := by
  simp only [bare, List.mem_filterMap]
  constructor
  · rintro ⟨w, hw, hname⟩
    split at hname
    · cases hname
      exact hw
    · cases hname
  · exact fun h => ⟨_, h, rfl⟩

theorem isHeaded_of_mem_braced (h : ∀ w ∈ ws, w.spelled) : ∀ n ∈ braced ws, isHeaded Text.isNameChar n.toList :=
  fun _ hn => h _ (mem_braced.mp hn)

theorem names_segment (h : ∀ w ∈ ws, w.spelled) : Segment.names (ws.map segment) = braced ws := by
  have hnames := Resolver.names_of_isHeaded (isHeaded_of_mem_braced h)
  rw [Segment.names] at hnames ⊢
  rw [filterMap_body?_segment]
  simpa [List.filterMap_map, Segment.body?, Function.comp_def] using hnames

end Word
end Arith

namespace Resolver
variable {r : Resolver} {segments : List Segment}

theorem mineBody_bare {body : List Char} (h : (Placeholder.ofBody body).fallback = none) :
    ∃ entries, r.mineBody body = { r with inFile := entries } ∧ ∀ key, (r.mineBody body).slotOf key = r.slotOf key := by
  simp only [mineBody, h]
  cases hkey : getKey? (Placeholder.ofBody body).key r.inFile with
  | some e => exact ⟨r.inFile, rfl, fun key => rfl⟩
  | none =>
    refine ⟨_, rfl, fun key => ?_⟩
    rw [slotOf, getKey?_setKey, slotOf]
    split
    · rename_i heq
      rw [heq, hkey]
      rfl
    · rfl

/-- Names without defaults tell a resolver nothing. -/
theorem recorded_bare (h : ∀ body ∈ segments.filterMap Segment.body?, (Placeholder.ofBody body).fallback = none) :
    ∃ entries, r.recorded segments = { r with inFile := entries } ∧
      ∀ key, (r.recorded segments).slotOf key = r.slotOf key := by
  rw [recorded]
  have hbodies : ∀ body ∈ (segments.filterMap Segment.body?).filter (!·.isEmpty), (Placeholder.ofBody body).fallback = none :=
    fun body hbody => h body (List.mem_of_mem_filter hbody)
  generalize (segments.filterMap Segment.body?).filter (!·.isEmpty) = bodies at hbodies
  induction bodies generalizing r with
  | nil => exact ⟨r.inFile, rfl, fun key => rfl⟩
  | cons body bodies ih =>
    rw [List.forall_mem_cons] at hbodies
    obtain ⟨entries, hmine, hslot⟩ := mineBody_bare (r := r) hbodies.1
    obtain ⟨entries', hrest, hslots⟩ := ih (r := r.mineBody body) hbodies.2
    rw [hmine] at hrest
    refine ⟨entries', by rw [List.foldl_cons, hmine, hrest], fun key => ?_⟩
    rw [List.foldl_cons, hslots, hslot]

/-- Two resolvers that answer alike about every name. -/
structure SameAnswers (s r : Resolver) : Prop where
  lookup : s.lookup = r.lookup
  isAvailable : s.isAvailable = r.isAvailable
  inConflict : s.inConflict = r.inConflict
  undefined : s.undefined = r.undefined
  notFound : s.notFound = r.notFound
  lenient : s.lenient = r.lenient

theorem SameAnswers.value? {s : Resolver} (h : s.SameAnswers r) : s.value? = r.value? := by
  funext name
  rw [Resolver.value?, Resolver.value?, h.lookup]

/-- Answers come from what the request file says of a name and from what does not change. -/
theorem sameAnswers_of_slotOf {s : Resolver} {entries : List (String × Entry)} {d : Draws} {o : Bool}
    (hs : s = { r with inFile := entries, draws := d, overflowed := o }) (hslot : ∀ key, s.slotOf key = r.slotOf key) :
    s.SameAnswers r := by
  subst hs
  have havailable : isAvailable { r with inFile := entries, draws := d, overflowed := o } = r.isAvailable := by
    funext key
    simp only [Resolver.isAvailable, hslot]
  constructor
  · funext key
    simp only [Resolver.lookup, hslot]
    rfl
  · exact havailable
  · funext key
    simp only [Resolver.inConflict, hslot]
  · funext names
    rw [Resolver.undefined, havailable, Resolver.undefined]
  · rfl
  · rfl

end Resolver

namespace Resolve
open Resolver Arith
variable {r : Resolver} {ws : List Word}

/-- Names in braces are filled with the values that they have. -/
theorem filled_of_fills {d d' : Draws} {out : List Char} (h : ∀ w ∈ ws, w.spelled)
    (hfills : Fills r d (ws.map Word.segment) out d') : out = ws.flatMap (Word.filled r.value?) := by
  induction ws generalizing d out with
  | nil =>
    cases hfills
    rfl
  | cons w ws ih =>
    rw [List.forall_mem_cons] at h
    rw [List.flatMap_cons]
    have hplain (cs : List Char) (hsegment : w.segment = .plain cs) (hfilled : w.filled r.value? = cs) :
        out = w.filled r.value? ++ ws.flatMap (Word.filled r.value?) := by
      rw [List.map_cons, hsegment, Fills.plain_iff] at hfills
      obtain ⟨text, rfl, hrest⟩ := hfills
      rw [hfilled, ih h.2 hrest]
    cases w with
    | name braces n =>
      cases braces with
      | false => exact hplain _ rfl rfl
      | true =>
        have hbody := ofBody_of_isHeaded h.1
        cases hfills with
        | nameless hkey =>
          rw [hbody, isEmpty_of_isHeaded h.1] at hkey
          cases hkey
        | named hkey hv hrest =>
          rw [hbody] at hv
          obtain ⟨v, hlookup, rfl⟩ := hv.lookup_of_isHeaded h.1
          rw [ih h.2 hrest]
          simp [Word.filled, Resolver.value?, hlookup]
    | _ => exact hplain _ rfl rfl

/-- What the expansion of an expression comes to. Its names in braces are looked at before any other. -/
theorem on_expand_words (r : Resolver) (h : ∀ w ∈ ws, w.spelled) :
    let undefined := r.undefined (Word.braced ws)
    let conflict := (Word.braced ws).find? r.inConflict
    (undefined ≠ [] → r.lenient = false → (on (expand (Word.text ws)) r).1 = .error (r.notFound undefined)) ∧
    (undefined = [] → ∀ key, conflict = some key → r.lenient = false →
      (on (expand (Word.text ws)) r).1 = .error (.propertyConflict key)) ∧
    (undefined = [] → conflict = none → ∃ s, s.SameAnswers r ∧
      on (expand (Word.text ws)) r = (.ok (String.ofList (ws.flatMap (Word.filled r.value?))), s)) := by
  have hwhole : ∀ s ∈ ws.map Word.segment, s.Whole := by
    intro s hs
    obtain ⟨w, hw, rfl⟩ := List.mem_map.mp hs
    exact Word.whole_segment (h w hw)
  have htext : Word.text ws = String.ofList ((ws.map Word.segment).flatMap Segment.chars) := by
    rw [List.flatMap_map]
    rfl
  have hbare : ∀ body ∈ (ws.map Word.segment).filterMap Segment.body?, (Placeholder.ofBody body).fallback = none := by
    rw [Word.filterMap_body?_segment]
    intro body hbody
    obtain ⟨n, hn, rfl⟩ := List.mem_map.mp hbody
    rw [ofBody_of_isHeaded (Word.isHeaded_of_mem_braced h n hn)]
  obtain ⟨entries, hrecorded, hslot⟩ := recorded_bare (r := r) hbare
  have hsame := sameAnswers_of_slotOf (d := r.draws) (o := r.overflowed) hrecorded hslot
  have hunknown : (r.recorded (ws.map Word.segment)).unknown (ws.map Word.segment) = r.undefined (Word.braced ws) := by
    rw [unknown, Word.names_segment h, hsame.isAvailable, Resolver.undefined]
  have hexpand := on_expand_pieces r hwhole
  obtain ⟨hmissing, hknown⟩ := on_fill r (ws.map Word.segment) (Word.text ws)
  simp only [← htext] at hexpand
  rw [← hexpand, hunknown] at hmissing hknown
  rw [Word.names_segment h, hsame.inConflict] at hknown
  intro undefined conflict
  refine ⟨fun hne hstrict => ?_, fun hnone key hkey hstrict => ?_, fun hnone hcalm => ?_⟩
  · rw [hmissing hne, on_failOr_of_strict (hsame.lenient.trans hstrict)]
  · obtain ⟨cs, d, o, -, hrun, -⟩ := hknown hnone
    simp only [conflict] at hkey
    simp only [hrun, hkey]
    rw [on_failOr_of_strict]
    exact hsame.lenient.trans hstrict
  · obtain ⟨cs, d, o, hfills, hrun, -⟩ := hknown hnone
    simp only [conflict] at hcalm
    simp only [hcalm] at hrun
    rw [leaving_eq_self (by rw [Word.names_segment h, hsame.inConflict, hcalm])] at hfills
    rw [filled_of_fills h hfills, hsame.value?] at hrun
    exact ⟨{ r.recorded (ws.map Word.segment) with draws := d, overflowed := o },
      sameAnswers_of_slotOf (by rw [hrecorded]) hslot, hrun⟩

/-- Operators, parentheses and blanks part what stands around them. -/
theorem parts_filled {w : Word} (value? : String → Option String) (h : w.spelled) (hw : w.isOperand = false) :
    Substituted.Parts (w.filled value?) := by
  cases w with
  | number | name => cases hw
  | op o => exact Substituted.parts_of_isMark (.op o)
  | opening => exact Substituted.parts_of_isMark .opening
  | closing => exact Substituted.parts_of_isMark .closing
  | blank c =>
    refine Substituted.parts_of_isBlank (List.cons_ne_nil _ _) fun d hd => ?_
    obtain rfl := List.mem_singleton.mp hd
    exact h

theorem isChain_parts (value? : String → Option String) (h : ∀ w ∈ ws, w.spelled) (hws : Word.Separate ws) :
    ws.IsChain fun a b => Substituted.Parts (a.filled value?) ∨ Substituted.Parts (b.filled value?) := by
  refine hws.imp_of_mem_imp fun a b ha hb hab => ?_
  rw [Bool.not_eq_true', Bool.and_eq_false_iff] at hab
  exact hab.imp (parts_filled value? (h a ha)) (parts_filled value? (h b hb))

/-- A word that is no name is not touched. -/
theorem substituted_word {w : Word} {value? : String → Option String} (h : w.spelled) (hw : ∀ b n, w ≠ .name b n) :
    Substituted value? none (w.filled value?) (w.filled value?) [] := by
  by_cases hoperand : w.isOperand
  · cases w with
    | number ds => exact .of_not_exposed (Word.not_exposed_number h none)
    | name b n => exact absurd rfl (hw b n)
    | _ => cases hoperand
  · exact (parts_filled value? h (by simpa using hoperand)).self

end Resolve
end RequestLang

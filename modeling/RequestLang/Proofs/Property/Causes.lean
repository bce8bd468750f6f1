import RequestLang.Proofs.Property.Words

/-! What an expression fails with over its names. Names in braces are judged when they are expanded, undefined ones first;
bare names are judged later, and only by whether some tier knows them. -/
namespace RequestLang.Resolve
open Lexer Resolver Arith
variable {r : Resolver} {ws : List Word}

theorem value?_of_undefined {n : String} (hn : isHeaded Text.isNameChar n.toList) (h : r.isAvailable n = false) :
    r.value? n = none := by
  have hlookup : r.lookup n = .ok none := by
    by_contra hne
    rw [(isAvailable_iff r (isSpecial_of_isHeaded hn)).mpr hne] at h
    cases h
  rw [Resolver.value?, hlookup]

theorem value?_of_conflict {n : String} (h : r.inConflict n) : r.value? n = none := by
  have hspecial : Generator.isSpecial n.toList = false := by
    simp only [Resolver.inConflict, Bool.and_eq_true, Bool.not_eq_true'] at h
    exact h.1.1.1
  rw [Resolver.value?, lookup_eq r hspecial, if_pos h]

/-- The value of some name in braces holds a name itself. -/
def Nested (r : Resolver) (ws : List Word) : Prop := ∃ n ∈ Word.braced ws, ∃ v, r.value? n = some v ∧ Exposed none v.toList

/-- How an expression over names ends where failures are not collected. -/
inductive Ends (r : Resolver) (ws : List Word) : Except Failure Json → Prop
  | undefined (hsome : r.undefined (Word.braced ws) ≠ []) : Ends r ws (.error (r.notFound (r.undefined (Word.braced ws))))
  | conflict {key : String} (hdefined : r.undefined (Word.braced ws) = [])
      (hkey : (Word.braced ws).find? r.inConflict = some key) : Ends r ws (.error (.propertyConflict key))
  | missing {names : List String} (hdefined : r.undefined (Word.braced ws) = [])
      (hcalm : (Word.braced ws).find? r.inConflict = none) (hsome : r.undefined names ≠ [])
      (hnames : ∀ n ∈ Word.bare ws, r.isAvailable n = false → n ∈ names)
      (hnested : ∀ n ∈ names, n ∈ Word.bare ws ∨ Nested r ws) :
      Ends r ws (.error (r.notFound (r.undefined names)))
  | invalid (reason : String) (hdefined : r.undefined (Word.braced ws) = [])
      (hcalm : (Word.braced ws).find? r.inConflict = none) (hbare : ∀ n ∈ Word.bare ws, r.isAvailable n) :
      Ends r ws (.error (.payloadInvalid reason))
  | value (v : Json) (hdefined : r.undefined (Word.braced ws) = [])
      (hcalm : (Word.braced ws).find? r.inConflict = none) (hbare : ∀ n ∈ Word.bare ws, r.value? n ≠ none) :
      Ends r ws (.ok v)

/-- The names that are left after the others are replaced: the bare ones without a value, and what values bring in. -/
theorem exists_substituted_words (h : ∀ w ∈ ws, w.spelled) (hseparate : Word.Separate ws) :
    ∃ out unknown, Substituted r.value? none (ws.flatMap (Word.filled r.value?)) out unknown ∧
      (∀ n ∈ Word.bare ws, r.value? n = none → n ∈ unknown) ∧ ∀ n ∈ unknown, n ∈ Word.bare ws ∨ Nested r ws := by
  have hword (w : Word) : ∃ out unknown, w ∈ ws →
      Substituted r.value? none (w.filled r.value?) out unknown ∧
        (∀ n, w = .name false n → r.value? n = none → n ∈ unknown) ∧ ∀ n ∈ unknown, n ∈ Word.bare ws ∨ Nested r ws := by
    by_cases hw : w ∈ ws
    swap
    · exact ⟨[], [], fun h => absurd h hw⟩
    cases w with
    | name braces n =>
      cases braces with
      | false =>
        refine ⟨_, _, fun _ => ⟨Substituted.name (h _ hw), ?_, fun m hm => .inl ?_⟩⟩
        · rintro _ ⟨⟩ hv
          simp [hv]
        · have hmn : m = n := by
            split at hm
            · cases hm
            · exact List.mem_singleton.mp hm
          rw [hmn]
          exact Word.mem_bare.mpr hw
      | true =>
        by_cases hnested : Exposed none ((Word.name true n).filled r.value?)
        · obtain ⟨out, unknown, hsub⟩ := Substituted.exists_substituted r.value? none ((Word.name true n).filled r.value?)
          refine ⟨out, unknown, fun _ => ⟨hsub, by simp, fun _ _ => .inr ⟨n, Word.mem_braced.mpr hw, ?_⟩⟩⟩
          cases hv : r.value? n with
          | none =>
            rw [Word.filled, hv] at hnested
            cases hnested
          | some v =>
            rw [Word.filled, hv] at hnested
            exact ⟨v, rfl, hnested⟩
        · exact ⟨_, [], fun _ => ⟨.of_not_exposed hnested, by simp, by simp⟩⟩
    | _ => exact ⟨_, [], fun _ => ⟨substituted_word (h _ hw) (by simp), by simp, by simp⟩⟩
  choose out unknown hsub using hword
  refine ⟨_, _, Substituted.flatMap (fun w hw => (hsub w hw).1) (isChain_parts r.value? h hseparate), fun n hn hv => ?_,
    fun n hn => ?_⟩
  · have hmem := Word.mem_bare.mp hn
    exact List.mem_flatMap.mpr ⟨_, hmem, (hsub _ hmem).2.1 n rfl hv⟩
  · obtain ⟨w, hw, hn⟩ := List.mem_flatMap.mp hn
    exact (hsub w hw).2.2 n hn

theorem ends (hstrict : r.lenient = false) (h : ∀ w ∈ ws, w.spelled) (hseparate : Word.Separate ws) :
    Ends r ws (on (evaluateArithmetic (Word.text ws)) r).1 := by
  obtain ⟨hundefined, hconflict, hexpand⟩ := on_expand_words r h
  by_cases hdefined : r.undefined (Word.braced ws) = []
  swap
  · rw [evaluateArithmetic_of_error (hundefined hdefined hstrict)]
    exact .undefined hdefined
  cases hcalm : (Word.braced ws).find? r.inConflict with
  | some key =>
    rw [evaluateArithmetic_of_error (hconflict hdefined key hcalm hstrict)]
    exact .conflict hdefined hcalm
  | none =>
    obtain ⟨s, hs, hrun⟩ := hexpand hdefined hcalm
    obtain ⟨out, unknown, hsub, hmem, hnested⟩ := exists_substituted_words (r := r) h hseparate
    have hbare {n : String} (hn : n ∈ Word.bare ws) (hfree : r.isAvailable n = false) : n ∈ unknown :=
      hmem n hn (value?_of_undefined (h _ (Word.mem_bare.mp hn)) hfree)
    rw [← hs.value?] at hsub hrun
    by_cases hnone : unknown = []
    · subst hnone
      rw [evaluateArithmetic_of_known hrun hsub]
      cases Arith.evaluate (String.ofList out) with
      | ok v => exact .value _ hdefined hcalm fun n hn hv => nomatch hmem n hn hv
      | error f =>
        refine .invalid _ hdefined hcalm fun n hn => ?_
        by_contra hfree
        exact nomatch hbare hn (Bool.eq_false_iff.mpr hfree)
    · obtain ⟨hmissing, hinvalid⟩ := evaluateArithmetic_of_unknown hrun hsub hnone
      rw [hs.undefined] at hmissing hinvalid
      by_cases hm : r.undefined unknown = []
      · obtain ⟨f, hf⟩ := hinvalid hm
        rw [hf]
        refine .invalid _ hdefined hcalm fun n hn => ?_
        by_contra hfree
        exact hfree (undefined_eq_nil.mp hm n (hbare hn (Bool.eq_false_iff.mpr hfree)))
      · rw [hmissing hm, hs.notFound]
        exact .missing hdefined hcalm hm (fun n hn => hbare hn) hnested

/-- What an expression over names fails with. Undefined names in braces come first and are all listed, then the first
name in braces that is in conflict. Behind them come the bare names: if one of them is undefined, all of those are listed,
and if one is in conflict while all are defined and no value holds a name, the payload is found invalid. A list of
undefined names never holds another name, and a payload is only found invalid if every name is defined. -/
theorem evaluateArithmetic_causes (hstrict : r.lenient = false) (h : ∀ w ∈ ws, w.spelled) (hseparate : Word.Separate ws) :
    let result := (on (evaluateArithmetic (Word.text ws)) r).1
    let undefined := r.undefined (Word.braced ws)
    let conflict := (Word.braced ws).find? r.inConflict
    (undefined ≠ [] → result = .error (r.notFound undefined)) ∧
    (undefined = [] → ∀ key, conflict = some key → result = .error (.propertyConflict key)) ∧
    (undefined = [] → conflict = none → (∃ n ∈ Word.bare ws, r.isAvailable n = false) →
      ∃ names, result = .error (r.notFound names) ∧ ∀ n ∈ Word.bare ws, r.isAvailable n = false → n ∈ names) ∧
    (undefined = [] → conflict = none → (∀ n ∈ Word.bare ws, r.isAvailable n) → ¬Nested r ws →
      (∃ n ∈ Word.bare ws, r.inConflict n) → ∃ reason, result = .error (.payloadInvalid reason)) ∧
    (∀ names file, result = .error (.propertyNotFound names file) → names ≠ [] ∧ ∀ n ∈ names, r.isAvailable n = false) ∧
    ∀ reason, result = .error (.payloadInvalid reason) →
      (∀ n ∈ Word.braced ws ++ Word.bare ws, r.isAvailable n) ∧ ∀ n ∈ Word.braced ws, r.inConflict n = false := by
  intro result undefined conflict
  have hends : Ends r ws result := ends hstrict h hseparate
  refine ⟨fun hne => ?_, fun hnone key hkey => ?_, fun hnone hcalm ⟨n, hn, hfree⟩ => ?_,
    fun hnone hcalm hdefined hplain ⟨n, hn, hconflict⟩ => ?_, fun names file hresult => ?_, fun reason hresult => ?_⟩
  all_goals generalize result = x at *
  · cases hends with
    | undefined => rfl
    | conflict hdefined | missing hdefined | invalid _ hdefined | value _ hdefined => exact absurd hdefined hne
  · cases hends with
    | undefined hne => exact absurd hnone hne
    | conflict _ hkey' => rw [Option.some.inj (hkey.symm.trans hkey')]
    | missing _ hcalm | invalid _ _ hcalm | value _ _ hcalm => exact nomatch hkey.symm.trans hcalm
  · cases hends with
    | undefined hne => exact absurd hnone hne
    | conflict _ hkey => exact nomatch hcalm.symm.trans hkey
    | missing _ _ _ hnames => exact ⟨_, rfl, fun n hn hfree => mem_undefined.mpr ⟨hnames n hn hfree, hfree⟩⟩
    | invalid _ _ _ hbare => exact absurd (hbare n hn) (by simp [hfree])
    | value _ _ _ hbare => exact absurd (value?_of_undefined (h _ (Word.mem_bare.mp hn)) hfree) (hbare n hn)
  · cases hends with
    | undefined hne => exact absurd hnone hne
    | conflict _ hkey => exact nomatch hcalm.symm.trans hkey
    | missing _ _ hsome _ hnested =>
      exact absurd (undefined_eq_nil.mpr fun n hn => hdefined n ((hnested n hn).resolve_right hplain)) hsome
    | invalid reason => exact ⟨reason, rfl⟩
    | value _ _ _ hbare => exact absurd (value?_of_conflict hconflict) (hbare n hn)
  · cases hends with
    | undefined hne =>
      cases hresult
      exact ⟨hne, fun n hn => (mem_undefined.mp hn).2⟩
    | missing _ _ hne =>
      cases hresult
      exact ⟨hne, fun n hn => (mem_undefined.mp hn).2⟩
    | _ => cases hresult
  · cases hends with
    | invalid _ hdefined hcalm hbare =>
      refine ⟨List.forall_mem_append.mpr ⟨undefined_eq_nil.mp hdefined, hbare⟩, fun n hn => ?_⟩
      exact Bool.eq_false_iff.mpr (List.find?_eq_none.mp hcalm n hn)
    | _ => cases hresult

/-- A conflict is reported for a name in braces, before an undefined bare name, and lost for a bare name. -/
theorem evaluateArithmetic_causes_conflict :
    let surroundings : Surroundings := ⟨fun _ => none, fun _ => none, 0⟩
    let r : Resolver := { inFile := [("a", ⟨.conflict, false⟩)], surroundings, draws := ⟨id, 0⟩ }
    let inBraces : List Word := [.name true "a", .op .add, .name false "b"]
    let alone : List Word := [.name false "a", .op .add, .number ['1']]
    r.lenient = false ∧ (∀ w ∈ inBraces ++ alone, w.spelled) ∧ Word.Separate inBraces ∧ Word.Separate alone ∧
      (on (evaluateArithmetic (Word.text inBraces)) r).1 = .error (.propertyConflict "a") ∧
      ∃ reason, (on (evaluateArithmetic (Word.text alone)) r).1 = .error (.payloadInvalid reason) := by
  intro surroundings r inBraces alone
  have hspelled : ∀ w ∈ inBraces ++ alone, w.spelled := by decide
  rw [List.forall_mem_append] at hspelled
  have hinBraces : Word.Separate inBraces := by simp [inBraces, Word.Separate, Word.isOperand]
  have halone : Word.Separate alone := by simp [alone, Word.Separate, Word.isOperand]
  have hstrict : r.lenient = false := rfl
  have hconflict := (evaluateArithmetic_causes hstrict hspelled.1 hinBraces).2.1
  have hinvalid := (evaluateArithmetic_causes hstrict hspelled.2 halone).2.2.2.1
  refine ⟨hstrict, List.forall_mem_append.mpr hspelled, hinBraces, halone, ?_, ?_⟩
  · exact hconflict (by decide +kernel) "a" (by decide +kernel)
  · refine hinvalid (by decide +kernel) (by decide +kernel) (by decide +kernel) ?_ ⟨"a", by decide, by decide +kernel⟩
    rintro ⟨n, hn, -⟩
    exact absurd hn (by simp [alone, Word.braced])

end RequestLang.Resolve

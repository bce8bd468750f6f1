import RequestLang.Property.Evaluate
import RequestLang.Proofs.Arith.Laid
import RequestLang.Proofs.Property.Lookup
import RequestLang.Proofs.Property.Pieces

/-! Values in the place of bare names. -/
namespace RequestLang
open Lexer

theorem isNameChar_of_isHeaded {cs : List Char} (h : isHeaded Text.isNameChar cs) : ∀ c ∈ cs, Text.isNameChar c := by
  obtain ⟨c, tail, rfl, hc, htail⟩ := cons_of_isHeaded h
  exact List.forall_mem_cons.mpr ⟨Text.isNameChar_of_isNameStart hc, htail⟩

theorem trimChars_of_isHeaded {cs : List Char} (h : isHeaded Text.isNameChar cs) : Text.trimChars cs = cs := by
  have hblank : ∀ c ∈ cs, Text.isBlank c = false := fun c hc =>
    Text.isBlank_of_isNameChar (isNameChar_of_isHeaded h c hc)
  rw [Text.trimChars, Text.trimLeft_eq_self fun c hc => hblank c (List.mem_of_mem_head? hc),
    Text.trimRight_eq_self fun c hc => hblank c (List.mem_of_mem_getLast? hc)]

theorem isSpecial_of_isHeaded {cs : List Char} (h : isHeaded Text.isNameChar cs) : Generator.isSpecial cs = false := by
  rw [Generator.isSpecial, trimChars_of_isHeaded h]
  obtain ⟨c, tail, rfl, hc, htail⟩ := cons_of_isHeaded h
  have hdollar : c ≠ '$' := by
    rintro rfl
    exact absurd hc (by decide)
  simp [Generator.expressionMark, Generator.all, Generator.name, List.isPrefixOf, hdollar.symm]

namespace Resolver

/-- The value of a name that is looked up. A name in conflict has none. -/
def value? (r : Resolver) (name : String) : Option String :=
  match r.lookup name with
  | .ok v => v
  | .error _ => none

end Resolver

namespace Resolve
variable {value? : String → Option String} {before : Option Char} {c : Char} {cs rest out out' : List Char}
  {unknown unknown' : List String}

/-- A text with values in the place of its bare names, and the names that have none and stay. -/
inductive Substituted (value? : String → Option String) :
    Option Char → List Char → List Char → List String → Prop
  | nil {before : Option Char} : Substituted value? before [] [] []
  | keep {before : Option Char} {c : Char} {cs out : List Char} {unknown : List String}
      (hc : (nameMayFollow before && Text.isNameStart c) = false) (h : Substituted value? (some c) cs out unknown) :
      Substituted value? before (c :: cs) (c :: out) unknown
  | known {before : Option Char} {c : Char} {tail rest out : List Char} {unknown : List String} {v : String}
      (hc : nameMayFollow before && Text.isNameStart c) (htail : ∀ d ∈ tail, Text.isNameChar d)
      (hrest : Stops Text.isNameChar rest) (hv : value? (String.ofList (c :: tail)) = some v)
      (h : Substituted value? (some c) rest out unknown) :
      Substituted value? before (c :: tail ++ rest) (v.toList ++ out) unknown
  | unknown {before : Option Char} {c : Char} {tail rest out : List Char} {unknown : List String}
      (hc : nameMayFollow before && Text.isNameStart c) (htail : ∀ d ∈ tail, Text.isNameChar d)
      (hrest : Stops Text.isNameChar rest) (hv : value? (String.ofList (c :: tail)) = none)
      (h : Substituted value? (some c) rest out unknown) :
      Substituted value? before (c :: tail ++ rest) (c :: tail ++ out) (String.ofList (c :: tail) :: unknown)

/-- Of what stands before a text, it matters only whether a name may follow. -/
theorem substitute_congr {before' : Option Char} (h : nameMayFollow before = nameMayFollow before') (cs : List Char) :
    substitute before 0 cs = substitute before' 0 cs := by
  cases cs with
  | nil => rfl
  | cons c cs => rw [substitute, substitute, h]

theorem isNameStart_of_not_isNameChar (hc : Text.isNameChar c = false) : Text.isNameStart c = false := by
  rw [← Bool.not_eq_true]
  intro hstart
  rw [Text.isNameChar_of_isNameStart hstart] at hc
  cases hc

theorem nameMayFollow_of_isNameChar (hc : Text.isNameChar c) : nameMayFollow (some c) = false := by
  simp [nameMayFollow, hc]

/-- The rest of a name is passed. -/
theorem substitute_skip {tail : List Char} (hc : Text.isNameChar c) (htail : ∀ d ∈ tail, Text.isNameChar d)
    (rest : List Char) : substitute (some c) tail.length (tail ++ rest) = substitute (some c) 0 rest := by
  induction tail generalizing c with
  | nil => rfl
  | cons d tail ih =>
    rw [List.forall_mem_cons] at htail
    refine (ih htail.1 htail.2).trans (substitute_congr ?_ rest)
    rw [nameMayFollow_of_isNameChar hc, nameMayFollow_of_isNameChar htail.1]

theorem isHeaded_cons {tail : List Char} (hc : nameMayFollow before && Text.isNameStart c)
    (htail : ∀ d ∈ tail, Text.isNameChar d) : isHeaded Text.isNameChar (c :: tail) := by
  rw [Bool.and_eq_true] at hc
  simp only [isHeaded, hc.2, Bool.true_and, List.all_eq_true]
  exact htail

theorem on_value {r : Resolver} {name : String} (h : isHeaded Text.isNameChar name.toList) :
    on (tryCatch (valueOf name) fun _ => pure none) r = (.ok (r.value? name), r) := by
  have htrim : Text.trim name = name := by rw [Text.trim, trimChars_of_isHeaded h, String.ofList_toList]
  rw [on_tryCatch, on_valueOf_stored htrim (isSpecial_of_isHeaded h), Resolver.value?]
  cases r.lookup name <;> rfl

/-- How a name is replaced, before the rest of the text. -/
theorem on_substitute_name {r : Resolver} {tail : List Char} (hc : nameMayFollow before && Text.isNameStart c)
    (htail : ∀ d ∈ tail, Text.isNameChar d) (hrest : Stops Text.isNameChar rest) :
    on (substitute before 0 (c :: tail ++ rest)) r =
      on (do
        let (text, unknown) ← substitute (some c) 0 rest
        match r.value? (String.ofList (c :: tail)) with
        | some v => return (v.toList ++ text, unknown)
        | none => return (c :: tail ++ text, String.ofList (c :: tail) :: unknown)) r := by
  have hhead := isHeaded_cons hc htail
  have hchar : Text.isNameChar c := Text.isNameChar_of_isNameStart (Bool.and_eq_true_iff.mp hc).2
  have htake := takeWhile_append_of_stops htail hrest
  have hvalue : on (tryCatch (valueOf (String.ofList (c :: tail))) fun _ => pure none) r = _ :=
    on_value (by rwa [String.toList_ofList])
  rw [List.cons_append, substitute, if_pos hc]
  simp only [htake]
  rw [on_bind, hvalue, substitute_skip hchar htail]
  rfl

/-- Names are looked up one after the other, and nothing changes. -/
theorem Substituted.on_substitute {r : Resolver} (h : Substituted r.value? before cs out unknown) :
    on (substitute before 0 cs) r = (.ok (out, unknown), r) := by
  induction h with
  | nil => rfl
  | keep hc _ ih =>
    rw [substitute, if_neg (by simp [hc]), on_bind, ih]
    rfl
  | known hc htail hrest hv _ ih =>
    rw [on_substitute_name hc htail hrest, on_bind, ih, hv]
    rfl
  | unknown hc htail hrest hv _ ih =>
    rw [on_substitute_name hc htail hrest, on_bind, ih, hv]
    rfl

namespace Substituted

/-- Every text is put right in some way. -/
theorem exists_substituted (value? : String → Option String) (before : Option Char) (cs : List Char) :
    ∃ out unknown, Substituted value? before cs out unknown := by
  induction hn : cs.length using Nat.strongRecOn generalizing before cs with
  | ind n ih =>
    cases cs with
    | nil => exact ⟨[], [], .nil⟩
    | cons c cs =>
      rw [List.length_cons] at hn
      cases hc : nameMayFollow before && Text.isNameStart c with
      | false =>
        obtain ⟨out, unknown, h⟩ := ih cs.length (by omega) (some c) cs rfl
        exact ⟨c :: out, unknown, .keep hc h⟩
      | true =>
        obtain ⟨tail, rest, rfl, htail, hrest⟩ := exists_run Text.isNameChar cs
        rw [List.length_append] at hn
        obtain ⟨out, unknown, h⟩ := ih rest.length (by omega) (some c) rest rfl
        rw [← List.cons_append]
        cases hv : value? (String.ofList (c :: tail)) with
        | none => exact ⟨_, _, .unknown hc htail hrest hv h⟩
        | some v => exact ⟨_, _, .known hc htail hrest hv h⟩

theorem congr {before' : Option Char} (h : Substituted value? before cs out unknown)
    (hbefore : nameMayFollow before = nameMayFollow before') : Substituted value? before' cs out unknown := by
  cases h with
  | nil => exact .nil
  | keep hc h => exact .keep (hbefore ▸ hc) h
  | known hc htail hrest hv h => exact .known (hbefore ▸ hc) htail hrest hv h
  | unknown hc htail hrest hv h => exact .unknown (hbefore ▸ hc) htail hrest hv h

/-- A text may be cut where no name goes over the cut. -/
theorem append (h : Substituted value? before cs out unknown) (hrest : Stops Text.isNameChar rest)
    (h' : ∀ before, Substituted value? before rest out' unknown') :
    Substituted value? before (cs ++ rest) (out ++ out') (unknown ++ unknown') := by
  have hstops {ds : List Char} (hds : Stops Text.isNameChar ds) : Stops Text.isNameChar (ds ++ rest) := by
    cases ds with
    | nil => exact hrest
    | cons d ds => exact hds
  induction h with
  | nil => exact h' _
  | keep hc _ ih => exact .keep hc ih
  | known hc htail hnext hv _ ih =>
    rw [List.append_assoc, List.append_assoc]
    exact .known hc htail (hstops hnext) hv ih
  | unknown hc htail hnext hv _ ih =>
    rw [List.append_assoc, List.append_assoc]
    exact .unknown hc htail (hstops hnext) hv ih

/-- No name goes on over what is no part of one. -/
theorem of_stops {before' : Option Char} (h : Substituted value? before cs out unknown) (hcs : Stops Text.isNameChar cs) :
    Substituted value? before' cs out unknown := by
  have hplain {c : Char} {ds : List Char} (hstops : Stops Text.isNameChar (c :: ds)) (before : Option Char) :
      (nameMayFollow before && Text.isNameStart c) = false := by
    rw [isNameStart_of_not_isNameChar ((stops_cons _ _ _).mp hstops), Bool.and_false]
  cases h with
  | nil => exact .nil
  | keep _ h => exact .keep (hplain hcs _) h
  | known hc => exact absurd hc (by simp [hplain hcs])
  | unknown hc => exact absurd hc (by simp [hplain hcs])

/-- What no name goes on in and a name may follow. -/
def Parts (cs : List Char) : Prop := cs ≠ [] ∧ ∀ c ∈ cs, Text.isNameChar c = false ∧ c ≠ '.'

theorem Parts.stops (h : Parts cs) (rest : List Char) : Stops Text.isNameChar (cs ++ rest) := by
  obtain ⟨c, cs, rfl⟩ := List.exists_cons_of_ne_nil h.1
  exact (stops_cons _ _ _).mpr (h.2 c List.mem_cons_self).1

theorem Parts.append (hcs : Parts cs) (h : Substituted value? none rest out unknown) :
    Substituted value? before (cs ++ rest) (cs ++ out) unknown := by
  obtain ⟨hne, hcs⟩ := hcs
  induction cs generalizing before with
  | nil => exact absurd rfl hne
  | cons c cs ih =>
    rw [List.forall_mem_cons] at hcs
    refine .keep (by rw [isNameStart_of_not_isNameChar hcs.1.1, Bool.and_false]) ?_
    by_cases hcs' : cs = []
    · subst hcs'
      exact h.congr (by simp [nameMayFollow, hcs.1])
    · exact ih hcs' hcs.2

theorem Parts.self (hcs : Parts cs) : Substituted value? before cs cs [] := by
  have h : Substituted value? before (cs ++ []) (cs ++ []) [] := hcs.append .nil
  rwa [List.append_nil] at h

theorem Parts.unique (hcs : Parts cs) (h : Substituted value? before cs out unknown) : out = cs ∧ unknown = [] := by
  obtain ⟨-, hcs⟩ := hcs
  have hstart {c : Char} (hc : Text.isNameChar c = false ∧ c ≠ '.') : Text.isNameStart c ≠ true := by
    simp [isNameStart_of_not_isNameChar hc.1]
  induction h with
  | nil => exact ⟨rfl, rfl⟩
  | keep _ _ ih =>
    obtain ⟨rfl, rfl⟩ := ih fun d hd => hcs d (List.mem_cons_of_mem _ hd)
    exact ⟨rfl, rfl⟩
  | known hc => exact absurd (Bool.and_eq_true_iff.mp hc).2 (hstart (hcs _ List.mem_cons_self))
  | unknown hc => exact absurd (Bool.and_eq_true_iff.mp hc).2 (hstart (hcs _ List.mem_cons_self))

theorem parts_of_isMark (h : Arith.IsMark cs) : Parts cs := by
  refine ⟨h.ne_nil, ?_⟩
  cases h with
  | op o => cases o <;> simp [Arith.Op.mark, Text.isNameChar]
  | opening => simp [Text.isNameChar]
  | closing => simp [Text.isNameChar]

theorem parts_of_isBlank (hne : cs ≠ []) (h : ∀ c ∈ cs, Arith.isBlank c) : Parts cs := by
  refine ⟨hne, fun c hc => ?_⟩
  rcases Arith.isBlank_iff.mp (h c hc) with rfl | rfl | rfl | rfl <;> decide

/-- Of pieces of which no two touch that could be one name, each is put right by itself. -/
theorem flatMap {α : Type} {ws : List α} {text out : α → List Char} {unknown : α → List String}
    (h : ∀ w ∈ ws, Substituted value? none (text w) (out w) (unknown w))
    (hparts : ws.IsChain fun a b => Parts (text a) ∨ Parts (text b)) :
    Substituted value? none (ws.flatMap text) (ws.flatMap out) (ws.flatMap unknown) := by
  induction ws with
  | nil => exact .nil
  | cons w ws ih =>
    rw [List.forall_mem_cons] at h
    have hrest := ih h.2 hparts.tail
    rw [List.flatMap_cons, List.flatMap_cons, List.flatMap_cons]
    cases ws with
    | nil => simpa using h.1
    | cons w' ws =>
      rw [List.isChain_cons_cons] at hparts
      rcases hparts.1 with hw | hw
      · obtain ⟨hout, hunknown⟩ := hw.unique h.1
        rw [hout, hunknown]
        exact hw.append hrest
      · rw [List.flatMap_cons] at hrest ⊢
        exact h.1.append (hw.stops _) fun before => hrest.of_stops (hw.stops _)

/-- A name by itself. -/
theorem name {value? : String → Option String} {n : String} (h : isHeaded Text.isNameChar n.toList) :
    Substituted value? none n.toList (((value? n).map String.toList).getD n.toList)
      (if (value? n).isSome then [] else [n]) := by
  obtain ⟨c, tail, hcs, hc, htail⟩ := cons_of_isHeaded h
  have hn : String.ofList (c :: tail) = n := by rw [← hcs, String.ofList_toList]
  have hstart : nameMayFollow none && Text.isNameStart c := by simp [nameMayFollow, hc]
  rw [hcs]
  cases hv : value? n with
  | none =>
    have hname : Substituted value? none (c :: tail ++ []) (c :: tail ++ []) [String.ofList (c :: tail)] :=
      unknown hstart htail (stops_nil _) (by rwa [hn]) .nil
    simpa [hn] using hname
  | some v =>
    have hname : Substituted value? none (c :: tail ++ []) (v.toList ++ []) [] :=
      known hstart htail (stops_nil _) (by rwa [hn]) .nil
    simpa using hname

theorem of_unknown (h : Substituted value? before cs out unknown) :
    ∀ n ∈ unknown, value? n = none ∧ isHeaded Text.isNameChar n.toList := by
  induction h with
  | nil => nofun
  | keep _ _ ih => exact ih
  | known _ _ _ _ _ ih => exact ih
  | unknown hc htail _ hv _ ih =>
    refine List.forall_mem_cons.mpr ⟨⟨hv, ?_⟩, ih⟩
    rw [String.toList_ofList]
    exact isHeaded_cons hc htail

end Substituted

/-- A name begins where it is read as one. -/
inductive Exposed : Option Char → List Char → Prop
  | here {before : Option Char} {c : Char} (hc : nameMayFollow before && Text.isNameStart c) (cs : List Char) :
    Exposed before (c :: cs)
  | cons {before : Option Char} (c : Char) {cs : List Char} (h : Exposed (some c) cs) : Exposed before (c :: cs)

namespace Exposed

theorem tail (h : Exposed before (c :: cs)) (hc : (nameMayFollow before && Text.isNameStart c) = false) :
    Exposed (some c) cs := by
  cases h with
  | here h => rw [h] at hc; cases hc
  | cons _ h => exact h

/-- Right behind a name there is none, so that anything may stand in the place of the name before. -/
theorem append_left (hc : Text.isNameChar c) (h : Exposed (some c) cs) (front : List Char) : Exposed before (front ++ cs) := by
  cases h with
  | here h =>
    rw [nameMayFollow_of_isNameChar hc] at h
    cases h
  | cons d h =>
    induction front generalizing before with
    | nil => exact .cons d h
    | cons e front ih => exact .cons e ih

theorem of_append {front : List Char} (h : Exposed before (front ++ cs)) (hfront : ∀ c ∈ front, Text.isNameStart c = false) :
    Exposed (front.getLast?.or before) cs := by
  induction front generalizing before with
  | nil => exact h
  | cons c front ih =>
    rw [List.forall_mem_cons] at hfront
    have hrest := ih (h.tail (by rw [hfront.1, Bool.and_false])) hfront.2
    cases front with
    | nil => exact hrest
    | cons d front =>
      rw [List.getLast?_cons_cons]
      cases hlast : (d :: front).getLast? with
      | none => simp at hlast
      | some e => rwa [hlast] at hrest

end Exposed

/-- A name without a value stays where it is read as one. -/
theorem Substituted.exposed (h : Substituted value? before cs out unknown) (hne : unknown ≠ []) : Exposed before out := by
  induction h with
  | nil => exact absurd rfl hne
  | keep _ _ ih => exact .cons _ (ih hne)
  | known hc _ _ _ _ ih =>
    exact (ih hne).append_left (Text.isNameChar_of_isNameStart (Bool.and_eq_true_iff.mp hc).2) _
  | unknown hc => exact .here hc _

theorem Substituted.of_not_exposed (h : ¬Exposed before cs) : Substituted value? before cs cs [] := by
  induction cs generalizing before with
  | nil => exact .nil
  | cons c cs ih =>
    refine .keep ?_ (ih fun hcs => h (.cons c hcs))
    rw [← Bool.not_eq_true]
    exact fun hc => h (.here hc cs)

end Resolve

namespace Arith
open Resolve
variable {before : Option Char} {cs front left : List Char}

theorem isNameStart_of_isNumberChar {c : Char} (hc : isNumberChar c) : Text.isNameStart c = false := by
  rw [← Bool.not_eq_true]
  intro hstart
  rw [isNumberChar, Text.isDigit_of_isNameStart hstart, Bool.false_or, beq_iff_eq] at hc
  subst hc
  exact absurd hstart (by decide)

theorem nameMayFollow_of_isNumberChar {c : Char} (hc : isNumberChar c) : nameMayFollow (some c) = false := by
  rw [isNumberChar, Bool.or_eq_true] at hc
  rcases hc with hc | hc <;> simp_all [nameMayFollow, Text.isNameChar, Char.isAlphanum]

/-- The letter of an exponent stands behind a digit or a point, where no name begins. -/
theorem Exponent.not_exposed {exponent rest : List Char} (h : Exponent exponent rest)
    (hbefore : nameMayFollow before = false) (hexposed : Exposed before (exponent ++ rest)) :
    ∃ before, Exposed before rest := by
  have hdigits {digits : List Char} (hdigits : ∀ c ∈ digits, c.isDigit) : ∀ c ∈ digits, Text.isNameStart c = false :=
    fun c hc => isNameStart_of_isNumberChar (by simp [isNumberChar, hdigits c hc])
  cases h with
  | none => exact ⟨_, hexposed⟩
  | signed he hs hd =>
    have hsign := (hexposed.tail (by simp [hbefore])).tail (by rcases hs with rfl | rfl <;> simp [Text.isNameStart])
    exact ⟨_, hsign.of_append (hdigits hd)⟩
  | unsigned he _ hd => exact ⟨_, (hexposed.tail (by simp [hbefore])).of_append (hdigits hd)⟩

theorem exposed_of_number {c : Char} {ds : List Char} (hc : isNumberChar c)
    (hlength : numberLength (c :: ds ++ left) = (c :: ds).length) (hexposed : Exposed before (c :: ds ++ left)) :
    ∃ before, Exposed before left := by
  obtain ⟨body, exponent, hds, hbody, hexponent⟩ := numeral_of_numberLength hlength
  have hne := hexponent.body_ne_nil hc (by rw [← List.append_assoc, ← hds]; rfl)
  rw [hds, List.append_assoc] at hexposed
  have hrest := hexposed.of_append fun d hd => isNameStart_of_isNumberChar (hbody d hd)
  refine hexponent.not_exposed ?_ hrest
  rw [List.getLast?_eq_getLast_of_ne_nil hne]
  exact nameMayFollow_of_isNumberChar (hbody _ (List.getLast_mem hne))

theorem Takes.exposed {new : List Symbol} (h : Takes front new left) (hexposed : Exposed before (front ++ left)) :
    ∃ before, Exposed before left := by
  have hplain (hfront : ∀ c ∈ front, Text.isNameStart c = false) : ∃ before, Exposed before left :=
    ⟨_, hexposed.of_append hfront⟩
  cases h with
  | blank hc =>
    refine hplain ?_
    rcases isBlank_iff.mp hc with rfl | rfl | rfl | rfl <;> simp [Text.isNameStart]
  | op o => exact hplain (by cases o <;> simp [Op.mark, Text.isNameStart])
  | opening => exact hplain (by simp [Text.isNameStart])
  | closing => exact hplain (by simp [Text.isNameStart])
  | number hc hlength => exact exposed_of_number hc hlength hexposed

/-- Where symbols can be read, there are no names. -/
theorem TakenApart.not_exposed {ss : List Symbol} (h : TakenApart cs ss) : ¬Exposed before cs := by
  induction h generalizing before with
  | nil => nofun
  | cons htakes _ ih =>
    intro hexposed
    obtain ⟨before, hleft⟩ := htakes.exposed hexposed
    exact ih hleft

end Arith

/-! Names in braces. -/

theorem ofBody_of_isHeaded {n : String} (h : isHeaded Text.isNameChar n.toList) : Placeholder.ofBody n.toList = ⟨n, none⟩ := by
  have hplain : n.toList.dropWhile (· != '=') = [] := by
    refine List.dropWhile_eq_nil_iff.mpr fun c hc => ?_
    rw [bne_iff_ne]
    rintro rfl
    exact absurd (isNameChar_of_isHeaded h _ hc) (by decide)
  simp [Placeholder.ofBody, isSpecial_of_isHeaded h, Text.splitOnce?, hplain, trimChars_of_isHeaded h]

theorem isEmpty_of_isHeaded {n : String} (h : isHeaded Text.isNameChar n.toList) : n.isEmpty = false := by
  rw [← Bool.not_eq_true, String.isEmpty_iff]
  rintro rfl
  exact absurd h (by decide)

theorem whole_of_isHeaded {cs : List Char} (h : isHeaded Text.isNameChar cs) : (Segment.hole cs).Whole := by
  have hbrace : '\x7d' ∉ cs := fun hmem => absurd (isNameChar_of_isHeaded h _ hmem) (by decide)
  refine Text.through?_append_mark ?_ fun hlast => hbrace (List.mem_of_getLast? hlast)
  rw [← Bool.not_eq_true, Text.holds_iff_infix (by simp)]
  exact fun hin => hbrace (hin.subset List.mem_cons_self)

namespace Resolver

/-- The names that no tier knows, each once. -/
def undefined (r : Resolver) (names : List String) : List String := (names.filter (!r.isAvailable ·)).eraseDups

@[simp] theorem undefined_nil (r : Resolver) : r.undefined [] = [] := rfl

theorem mem_undefined {r : Resolver} {names : List String} {n : String} :
    n ∈ r.undefined names ↔ n ∈ names ∧ r.isAvailable n = false := by
  rw [undefined, List.mem_eraseDups, List.mem_filter, Bool.not_eq_true']

theorem undefined_eq_nil {r : Resolver} {names : List String} :
    r.undefined names = [] ↔ ∀ n ∈ names, r.isAvailable n := by
  constructor
  · intro h n hn
    by_contra hfree
    have hmem := mem_undefined.mpr ⟨hn, Bool.eq_false_iff.mpr hfree⟩
    rw [h] at hmem
    cases hmem
  · intro h
    rw [undefined, List.filter_eq_nil_iff.mpr fun n hn => by simp [h n hn]]
    rfl

/-- A name that is not computed has the value that is stored for it. -/
theorem Yields.lookup_of_isHeaded {r : Resolver} {n : String} {d d' : Draws} {v : List Char} (hyields : r.Yields n d v d')
    (h : isHeaded Text.isNameChar n.toList) : ∃ value, r.lookup n = .ok (some value) ∧ v = value.toList := by
  have hmark (formula : List Char) : n.toList ≠ Generator.expressionMark.toList ++ formula := by
    intro hn
    rw [hn] at h
    exact absurd h (by simp [Generator.expressionMark, isHeaded, Text.isNameStart])
  cases hyields with
  | stored _ hv => exact ⟨_, hv, rfl⟩
  | computed hkey => exact absurd hkey (hmark _)
  | formula hkey => exact absurd hkey (hmark _)
  | drawn hkey =>
    rw [isSpecial_of_isHeaded h] at hkey
    cases hkey

theorem names_of_isHeaded {names : List String} (h : ∀ n ∈ names, isHeaded Text.isNameChar n.toList) :
    Segment.names (names.map fun n => .hole n.toList) = names := by
  induction names with
  | nil => rfl
  | cons n names ih =>
    rw [List.forall_mem_cons] at h
    have hkey : (Placeholder.ofBody n.toList).key = n := by rw [ofBody_of_isHeaded h.1]
    rw [List.map_cons, Segment.names_named (by rw [hkey, isEmpty_of_isHeaded h.1]), hkey, ih h.2]

/-- Of names put in braces, those are missing that no tier knows. -/
theorem missing_holesOf (r : Resolver) {names : List String} (h : ∀ n ∈ names, isHeaded Text.isNameChar n.toList) :
    r.missing (Resolve.holesOf names) = r.undefined names := by
  have hwhole : ∀ s ∈ names.map fun n => Segment.hole n.toList, s.Whole := by
    intro s hs
    obtain ⟨n, hn, rfl⟩ := List.mem_map.mp hs
    exact whole_of_isHeaded (h n hn)
  have htext : (Resolve.holesOf names).toList = (names.map fun n => Segment.hole n.toList).flatMap Segment.chars := by
    rw [Resolve.holesOf, String.toList_join, List.flatMap_map, List.flatMap_map]
    simp [Segment.chars]
  rw [missing_eq, htext, unknown_ofText hwhole, unknown, names_of_isHeaded h, undefined]

end Resolver

namespace Resolve
variable {r s : Resolver} {value? : String → Option String} {text : String} {cs out : List Char} {unknown : List String}

theorem evaluateArithmetic_of_error {f : Failure} (h : (on (expand text) r).1 = .error f) :
    (on (evaluateArithmetic text) r).1 = .error f := by
  rw [evaluateArithmetic, on_bind]
  rcases hx : on (expand text) r with ⟨x, s⟩
  rw [hx] at h
  obtain rfl : x = .error f := h
  rfl

/-- How the value of an expression is found when its placeholders are filled. -/
def finishArithmetic (text expanded : String) : Resolve Json := do
  let (substituted, unknown) ← substitute none 0 expanded.toList
  if !unknown.isEmpty then check (holesOf unknown)
  match Arith.evaluate (String.ofList substituted) with
  | .ok v => return .ofNumeral v
  | .error f =>
    modify (·.noteFault f)
    throw (.payloadInvalid ("cannot evaluate `" ++ text ++ "`: " ++ f.message))

theorem evaluateArithmetic_eq (text : String) : evaluateArithmetic text = expand text >>= finishArithmetic text := rfl

/-- The value of an expression, by what stands in the place of its names. Names that no tier knows are reported. -/
theorem on_finishArithmetic {expanded : String} (h : Substituted s.value? none expanded.toList out unknown) :
    on (finishArithmetic text expanded) s =
      if s.undefined unknown = [] then
        match Arith.evaluate (String.ofList out) with
        | .ok v => (.ok (.ofNumeral v), s)
        | .error f => (.error (.payloadInvalid ("cannot evaluate `" ++ text ++ "`: " ++ f.message)), s.noteFault f)
      else (.error (s.notFound (s.undefined unknown)), s) := by
  have hmissing := s.missing_holesOf fun n hn => (h.of_unknown n hn).2
  have hcheck : on (check (holesOf unknown)) s =
      (if s.undefined unknown = [] then .ok () else .error (s.notFound (s.undefined unknown)), s) := by
    rw [check, on_bind, on_get, andThen_ok, hmissing]
    cases s.undefined unknown <;> rfl
  rw [finishArithmetic, on_bind, h.on_substitute, andThen_ok]
  cases unknown with
  | nil =>
    rw [if_pos s.undefined_nil]
    simp only [List.isEmpty_nil, Bool.not_true, Bool.false_eq_true, if_false]
    cases Arith.evaluate (String.ofList out) <;> rfl
  | cons n unknown =>
    simp only [List.isEmpty_cons, Bool.not_false, if_true]
    rw [on_bind, hcheck]
    by_cases hm : s.undefined (n :: unknown) = []
    · rw [if_pos hm, if_pos hm]
      cases Arith.evaluate (String.ofList out) <;> rfl
    · rw [if_neg hm, if_neg hm]
      rfl

theorem on_evaluateArithmetic (hexpand : on (expand text) r = (.ok (String.ofList cs), s))
    (h : Substituted s.value? none cs out unknown) :
    on (evaluateArithmetic text) r =
      if s.undefined unknown = [] then
        match Arith.evaluate (String.ofList out) with
        | .ok v => (.ok (.ofNumeral v), s)
        | .error f => (.error (.payloadInvalid ("cannot evaluate `" ++ text ++ "`: " ++ f.message)), s.noteFault f)
      else (.error (s.notFound (s.undefined unknown)), s) := by
  rw [evaluateArithmetic_eq, on_bind, hexpand, andThen_ok]
  exact on_finishArithmetic (by rwa [String.toList_ofList])

/-- The value of an expression whose names are all known. -/
theorem evaluateArithmetic_of_known (hexpand : on (expand text) r = (.ok (String.ofList cs), s))
    (h : Substituted s.value? none cs out []) :
    (on (evaluateArithmetic text) r).1 = match Arith.evaluate (String.ofList out) with
      | .ok v => .ok (.ofNumeral v)
      | .error f => .error (.payloadInvalid ("cannot evaluate `" ++ text ++ "`: " ++ f.message)) := by
  rw [on_evaluateArithmetic hexpand h, if_pos s.undefined_nil]
  cases Arith.evaluate (String.ofList out) <;> rfl

/-- Where a name has no value there is nothing to compute. -/
theorem Substituted.symbolsOf_eq_error (h : Substituted value? none cs out unknown) (hne : unknown ≠ []) :
    ∃ f, Arith.symbolsOf out = .error f := by
  cases hout : Arith.symbolsOf out with
  | error f => exact ⟨f, rfl⟩
  | ok ss => exact absurd (h.exposed hne) (Arith.takenApart_of_symbolsOf hout).not_exposed

/-- Names without a value are reported if no tier knows them, and are in the way of a value if they are in conflict. -/
theorem evaluateArithmetic_of_unknown (hexpand : on (expand text) r = (.ok (String.ofList cs), s))
    (h : Substituted s.value? none cs out unknown) (hne : unknown ≠ []) :
    (s.undefined unknown ≠ [] → (on (evaluateArithmetic text) r).1 = .error (s.notFound (s.undefined unknown))) ∧
    (s.undefined unknown = [] → ∃ f : Arith.Fault,
      (on (evaluateArithmetic text) r).1 = .error (.payloadInvalid ("cannot evaluate `" ++ text ++ "`: " ++ f.message))) := by
  rw [on_evaluateArithmetic hexpand h]
  refine ⟨fun hm => by rw [if_neg hm], fun hm => ?_⟩
  obtain ⟨f, hf⟩ := h.symbolsOf_eq_error hne
  refine ⟨f, ?_⟩
  rw [if_pos hm, Arith.evaluate_of_symbolsOf_error hf]

end Resolve
end RequestLang

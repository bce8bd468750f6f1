import RequestLang.Proofs.Json.RoundTrip
import RequestLang.Proofs.Property.Words

/-! Names in arithmetic stand for their values. The value of a name is put in as text, so that the sign of a negative one
is read like any other sign. -/
namespace RequestLang
open Lexer

namespace Arith

/-- An expression in which names stand besides numbers. -/
inductive Formula where
  | literal (n : Nat)
  | name (n : String)
  | negative (f : Formula)
  | positive (f : Formula)
  | binary (op : Op) (a b : Formula)

namespace Formula

/-- The expression in which each name is the number that it denotes. -/
def assign (σ : String → Int) : Formula → Expr
  | literal n => .literal n
  | name n => if 0 ≤ σ n then .literal (σ n).natAbs else .negative (.literal (σ n).natAbs)
  | negative f => .negative (f.assign σ)
  | positive f => .positive (f.assign σ)
  | binary op a b => .binary op (a.assign σ) (b.assign σ)

/-- The words write the expression at the level. A name is as tight as a number, bare and in braces. -/
inductive Writes : Level → Formula → List Word → Prop
  | literal {ds : List Char} (hne : ds ≠ []) (hds : ds.all Char.isDigit) :
    Writes .atom (.literal (Numeral.ofDigits ds)) [.number ds]
  | name (braces : Bool) {n : String} (hn : isHeaded Text.isNameChar n.toList) : Writes .atom (.name n) [.name braces n]
  | enclosed {f : Formula} {ws : List Word} (h : Writes .sum f ws) : Writes .atom f (.opening :: (ws ++ [.closing]))
  | negative {f : Formula} {ws : List Word} (h : Writes .signed f ws) : Writes .signed (.negative f) (.op .sub :: ws)
  | positive {f : Formula} {ws : List Word} (h : Writes .signed f ws) : Writes .signed (.positive f) (.op .add :: ws)
  | binary {op : Op} {a b : Formula} {ws vs : List Word} (ha : Writes op.left a ws) (hb : Writes op.right b vs) :
    Writes op.level (.binary op a b) (ws ++ .op op :: vs)
  | loosen {l : Level} {f : Formula} {ws : List Word} (h : Writes l.next f ws) : Writes l f ws

end Formula

namespace Word

/-- The symbols of a word after its value is put in. -/
def pasted (σ : String → Int) : Word → List Symbol
  | number ds => [.number (.int (Numeral.ofDigits ds))]
  | name _ n => if 0 ≤ σ n then [.number (.int (σ n).natAbs)] else [.op .sub, .number (.int (σ n).natAbs)]
  | op o => [.op o]
  | opening => [.opening]
  | closing => [.closing]
  | blank _ => []

/-- A word with its value. -/
def written (σ : String → Int) : Word → List Char
  | name _ n => (toString (σ n)).toList
  | w => w.chars

def isBlank : Word → Bool
  | blank _ => true
  | _ => false

end Word

/-- A name with a negative value stands directly before the sign of a power. -/
def NegativeBase (σ : String → Int) (ws : List Word) : Prop := ∃ b n, [.name b n, .op .pow] <:+: ws ∧ σ n < 0

section
variable {σ : String → Int} {l : Level} {f : Formula} {ws vs front back : List Word}

theorem NegativeBase.of_infix (h : NegativeBase σ ws) (hws : ws <:+: vs) : NegativeBase σ vs := by
  obtain ⟨b, n, hin, hn⟩ := h
  exact ⟨b, n, hin.trans hws, hn⟩

/-- Words with their values write the expression with its values, except that a name with a negative value becomes a
sign before a number, which is less tight than a name. -/
theorem Formula.Writes.pasted (h : f.Writes l ws) (hsafe : ¬NegativeBase σ ws) :
    Arith.Writes l (f.assign σ) (ws.flatMap (Word.pasted σ)) ∨
      Level.power.rank ≤ l.rank ∧ (∃ b n, ws = [.name b n] ∧ σ n < 0) ∧
        Arith.Writes .signed (f.assign σ) (ws.flatMap (Word.pasted σ)) := by
  induction h with
  | literal hne hds => exact .inl (.literal _)
  | @name b n hn =>
    by_cases hσ : 0 ≤ σ n
    · refine .inl ?_
      rw [Formula.assign, if_pos hσ, List.flatMap_singleton, Word.pasted, if_pos hσ]
      exact .literal _
    · refine .inr ⟨by decide, ⟨b, n, rfl, by omega⟩, ?_⟩
      rw [Formula.assign, if_neg hσ, List.flatMap_singleton, Word.pasted, if_neg hσ]
      exact .negative (.loosen (.loosen (.literal _)))
  | @enclosed f ws h ih =>
    have hinner := ih fun hbase => hsafe (hbase.of_infix ⟨[.opening], [.closing], rfl⟩)
    rw [List.flatMap_cons, List.flatMap_append]
    exact .inl (.enclosed (hinner.resolve_right fun h => absurd h.1 (by decide)))
  | @negative f ws h ih =>
    have hinner := ih fun hbase => hsafe (hbase.of_infix (List.suffix_cons _ _).isInfix)
    exact .inl (.negative (hinner.resolve_right fun h => absurd h.1 (by decide)))
  | @positive f ws h ih =>
    have hinner := ih fun hbase => hsafe (hbase.of_infix (List.suffix_cons _ _).isInfix)
    exact .inl (.positive (hinner.resolve_right fun h => absurd h.1 (by decide)))
  | @binary op a b ws vs ha hb iha ihb =>
    have hleft := iha fun hbase => hsafe (hbase.of_infix (List.prefix_append _ _).isInfix)
    have hright := ihb fun hbase => hsafe (hbase.of_infix
      ((List.suffix_cons _ _).isInfix.trans (List.suffix_append _ _).isInfix))
    have ha : Arith.Writes op.left (a.assign σ) (ws.flatMap (Word.pasted σ)) := by
      rcases hleft with hleft | ⟨hrank, ⟨b, n, hws, hn⟩, -⟩
      · exact hleft
      -- only a power has an operand on its left that is as tight as a name
      · cases op with
        | pow => exact absurd ⟨b, n, ⟨[], vs, by rw [hws]; rfl⟩, hn⟩ hsafe
        | _ => exact absurd hrank (by decide)
    have hb : Arith.Writes op.right (b.assign σ) (vs.flatMap (Word.pasted σ)) := by
      refine hright.resolve_right fun h => absurd h.1 ?_
      cases op <;> decide
    rw [List.flatMap_append, List.flatMap_cons]
    exact .inl (.binary ha hb)
  | @loosen l f ws h ih =>
    rcases ih hsafe with hinner | ⟨hrank, hname, hinner⟩
    · exact .inl (.loosen hinner)
    · cases l with
      | sum => exact absurd hrank (by decide)
      | product => exact absurd hrank (by decide)
      | signed => exact .inl hinner
      | power => exact .inr ⟨by decide, hname, hinner⟩
      | atom => exact .inr ⟨by decide, hname, hinner⟩

end

/-- All numbers of an expression that has an exact value are bounded. -/
theorem Writes.le_of_exact {l : Level} {e : Expr} {ss : List Symbol} {v : Int} (h : Writes l e ss) (hv : e.exact = .ok v) :
    ∀ i, .number (.int i) ∈ ss → i.natAbs ≤ 2 ^ 63 - 1 := by
  induction h generalizing v with
  | literal n =>
    intro i hi
    obtain rfl : i = n := by simpa using hi
    exact (bounded_eq_ok.mp hv).1
  | enclosed _ ih =>
    intro i hi
    exact ih hv i (by simpa [enclose] using hi)
  | negative _ ih =>
    obtain ⟨x, hx, -⟩ := bind_eq_ok.mp hv
    intro i hi
    exact ih hx i (by simpa using hi)
  | positive _ ih =>
    intro i hi
    exact ih hv i (by simpa using hi)
  | binary _ _ iha ihb =>
    obtain ⟨x, hx, hv⟩ := bind_eq_ok.mp hv
    obtain ⟨y, hy, -⟩ := bind_eq_ok.mp hv
    intro i hi
    rcases List.mem_append.mp hi with hi | hi
    · exact iha hx i hi
    · exact ihb hy i (by simpa using hi)
  | loosen _ ih => exact ih hv

/-- The decimal text of a number, by its sign. -/
theorem toString_toList (i : Int) :
    (toString i).toList = (if 0 ≤ i then [] else ['-']) ++ Nat.toDigits 10 i.natAbs := by
  cases i with
  | ofNat n =>
    rw [Int.toString_eq_repr, show (Int.ofNat n).repr = n.repr from rfl]
    simp
  | negSucc n =>
    rw [Int.toString_eq_repr, show (Int.negSucc n).repr = "-" ++ (n + 1).repr from rfl]
    simp

theorem spells_toDigits {n : Nat} (hn : n ≤ 2 ^ 63 - 1) :
    Symbol.Spells (.number (.int n)) (Nat.toDigits 10 n) := by
  have hvalue : Numeral.ofDigits (Nat.toDigits 10 n) = n :=
    Nat.ofDigitChars_eq_foldl.symm.trans Nat.ofDigitChars_ten_toDigits
  have hspells := @Symbol.Spells.number (Nat.toDigits 10 n) Nat.toDigits_ne_nil
    (List.all_eq_true.mpr fun c hc => Nat.isDigit_of_mem_toDigits (by decide) (by decide) hc)
  rw [hvalue] at hspells
  refine hspells ?_
  rw [fitsSigned_iff, signedEnd]
  omega

/-- The text with its values spells the symbols with their values. -/
theorem Word.spaced {σ : String → Int} {ws : List Word} (h : ∀ w ∈ ws, w.spelled)
    (hdigits : ∀ ds, .number ds ∈ ws → ds.all Char.isDigit)
    (hfits : ∀ i : Int, .number (.int i) ∈ ws.flatMap (pasted σ) → i.natAbs ≤ 2 ^ 63 - 1) :
    Spaced (ws.flatMap (pasted σ)) (ws.flatMap (written σ)) := by
  induction ws with
  | nil => exact .nil
  | cons w ws ih =>
    rw [List.forall_mem_cons] at h
    rw [List.flatMap_cons] at hfits
    have hrest := ih h.2 (fun ds hds => hdigits ds (List.mem_cons_of_mem _ hds))
      fun i hi => hfits i (List.mem_append_right _ hi)
    have hword := fun (i : Int) hi => hfits i (List.mem_append_left _ hi)
    rw [List.flatMap_cons, List.flatMap_cons]
    cases w with
    | number ds =>
      obtain ⟨c, tail, hds, -⟩ := spelled_number h.1
      refine .cons (.number (by rw [hds]; exact List.cons_ne_nil _ _) (hdigits ds List.mem_cons_self) ?_) hrest
      have hle := hword (Numeral.ofDigits ds) (by simp [pasted])
      rw [fitsSigned_iff, signedEnd]
      omega
    | name b n =>
      have hle := hword (σ n).natAbs (by simp only [pasted]; split <;> simp)
      rw [Int.natAbs_natCast] at hle
      rw [written, toString_toList, pasted]
      by_cases hσ : 0 ≤ σ n
      · rw [if_pos hσ, if_pos hσ]
        exact .cons (spells_toDigits hle) hrest
      · rw [if_neg hσ, if_neg hσ, List.append_assoc]
        exact .cons (.op .sub) (.cons (spells_toDigits hle) hrest)
    | op o => exact .cons (.op o) hrest
    | opening => exact .cons .opening hrest
    | closing => exact .cons .closing hrest
    | blank c => exact .blank h.1 hrest

namespace Word
variable {ws : List Word}

theorem separate_cons {w : Word} (hw : w.isOperand = false) (h : Separate ws) : Separate (w :: ws) := by
  cases ws with
  | nil => exact .singleton w
  | cons v ws => exact .cons_cons (by simp [hw]) h

theorem flatMap_pasted_filter (σ : String → Int) (ws : List Word) :
    (ws.filter (!·.isBlank)).flatMap (pasted σ) = ws.flatMap (pasted σ) := by
  induction ws with
  | nil => rfl
  | cons w ws ih =>
    cases w with
    | blank c => exact ih
    | _ => exact congrArg (_ ++ ·) ih

/-- Blanks take nothing from what stands between operands. -/
theorem separate_of_filter (h : Separate (ws.filter (!·.isBlank))) : Separate ws := by
  induction ws with
  | nil => exact .nil
  | cons w ws ih =>
    by_cases hw : w.isBlank
    · have hoperand : w.isOperand = false := by cases w <;> simp_all [isBlank, isOperand]
      rw [List.filter_cons_of_neg (by simp [hw])] at h
      exact separate_cons hoperand (ih h)
    · rw [List.filter_cons_of_pos (by simp [hw])] at h
      have hrest := ih h.tail
      cases ws with
      | nil => exact .singleton w
      | cons v ws =>
        by_cases hv : v.isBlank
        · have hoperand : v.isOperand = false := by cases v <;> simp_all [isBlank, isOperand]
          exact .cons_cons (by simp [hoperand]) hrest
        · rw [List.filter_cons_of_pos (by simp [hv])] at h
          exact .cons_cons (List.isChain_cons_cons.mp h).1 hrest

end Word

namespace Formula.Writes
variable {l : Level} {f : Formula} {ws rest : List Word}

theorem loose (h : f.Writes .atom ws) : f.Writes l ws := by
  cases l with
  | sum => exact .loosen (.loosen (.loosen (.loosen h)))
  | product => exact .loosen (.loosen (.loosen h))
  | signed => exact .loosen (.loosen h)
  | power => exact .loosen h
  | atom => exact h

/-- Operands and what parts them take turns. -/
theorem separate (h : f.Writes l ws) (hrest : Word.Separate rest) (hhead : ∀ w ∈ rest.head?, w.isOperand = false) :
    Word.Separate (ws ++ rest) := by
  have hoperand {w : Word} {rest : List Word} (hrest : Word.Separate rest)
      (hhead : ∀ w ∈ rest.head?, w.isOperand = false) : Word.Separate (w :: rest) := by
    cases rest with
    | nil => exact .singleton w
    | cons v rest => exact .cons_cons (by simp [hhead v rfl]) hrest
  induction h generalizing rest with
  | literal | name => exact hoperand hrest hhead
  | enclosed _ ih =>
    rw [List.cons_append, List.append_assoc]
    exact Word.separate_cons rfl (ih (Word.separate_cons rfl hrest) (by simp [Word.isOperand]))
  | negative _ ih => exact Word.separate_cons rfl (ih hrest hhead)
  | positive _ ih => exact Word.separate_cons rfl (ih hrest hhead)
  | binary _ _ iha ihb =>
    rw [List.append_assoc]
    exact iha (Word.separate_cons rfl (ihb hrest hhead)) (by simp [Word.isOperand])
  | loosen _ ih => exact ih hrest hhead

theorem spelled (h : f.Writes l ws) : ∀ w ∈ ws, w.spelled ∧ ∀ ds, w = .number ds → ds.all Char.isDigit := by
  induction h with
  | @literal ds hne hds =>
    rw [List.forall_mem_singleton]
    refine ⟨?_, by rintro _ ⟨⟩; exact hds⟩
    obtain ⟨c, tail, rfl⟩ := List.exists_cons_of_ne_nil hne
    have hlength : numberLength (c :: tail) = (c :: tail).length := by
      simpa using @numberLength_digits (c :: tail) [] hds (by simp [EndsNumber])
    simp [Word.spelled, hlength, isNumberChar, List.all_eq_true.mp hds c List.mem_cons_self]
  | name b hn =>
    rw [List.forall_mem_singleton]
    exact ⟨hn, by simp⟩
  | enclosed _ ih =>
    rw [List.forall_mem_cons, List.forall_mem_append, List.forall_mem_singleton]
    exact ⟨⟨rfl, by simp⟩, ih, rfl, by simp⟩
  | negative _ ih | positive _ ih =>
    rw [List.forall_mem_cons]
    exact ⟨⟨rfl, by simp⟩, ih⟩
  | binary _ _ iha ihb =>
    rw [List.forall_mem_append, List.forall_mem_cons]
    exact ⟨iha, ⟨rfl, by simp⟩, ihb⟩
  | loosen _ ih => exact ih

end Formula.Writes
end Arith

namespace Resolve
open Resolver Arith
variable {r : Resolver} {f : Formula} {ws : List Word} {σ : String → Int}

theorem lookup_of_valueOf {n : String} {v : Option String} (hn : isHeaded Text.isNameChar n.toList)
    (hv : (on (valueOf n) r).1 = .ok v) : r.lookup n = .ok v := by
  have htrim : Text.trim n = n := by rw [Text.trim, trimChars_of_isHeaded hn, String.ofList_toList]
  rwa [on_valueOf_stored htrim (isSpecial_of_isHeaded hn)] at hv

theorem known_of_lookup {n v : String} (hn : isHeaded Text.isNameChar n.toList) (hv : r.lookup n = .ok (some v)) :
    r.isAvailable n = true ∧ r.inConflict n = false := by
  have hspecial := isSpecial_of_isHeaded hn
  constructor
  · exact (isAvailable_iff r hspecial).mpr (by simp [hv])
  · rw [← Bool.not_eq_true]
    intro hconflict
    rw [lookup_eq r hspecial, if_pos hconflict] at hv
    cases hv

theorem not_exposed_toString (i : Int) (before : Option Char) : ¬Exposed before (toString i).toList := by
  have hplain : ∀ c ∈ (toString i).toList, Text.isNameStart c = false := by
    rw [toString_toList, List.forall_mem_append]
    constructor
    · split <;> simp [Text.isNameStart]
    · intro c hc
      have hdigit : c.isDigit := Nat.isDigit_of_mem_toDigits (by decide) (by decide) hc
      exact isNameStart_of_isNumberChar (by simp [Arith.isNumberChar, hdigit])
  intro h
  rw [← List.append_nil (toString i).toList] at h
  cases h.of_append hplain

/-- Each name is replaced by its value, in braces and bare. -/
theorem substituted_written (h : ∀ w ∈ ws, w.spelled) (hseparate : Word.Separate ws)
    (hσ : ∀ b n, .name b n ∈ ws → r.value? n = some (toString (σ n))) :
    Substituted r.value? none (ws.flatMap (Word.filled r.value?)) (ws.flatMap (Word.written σ)) [] := by
  have hwords : ∀ w ∈ ws, Substituted r.value? none (w.filled r.value?) (w.written σ) [] := by
    intro w hw
    cases w with
    | name b n =>
      have hv := hσ b n hw
      cases b with
      | true =>
        have hfilled : (Word.name true n).filled r.value? = (toString (σ n)).toList := by simp [Word.filled, hv]
        rw [hfilled]
        exact .of_not_exposed (not_exposed_toString _ _)
      | false =>
        have hname := @Substituted.name r.value? _ (h _ hw)
        rw [hv] at hname
        exact hname
    | _ => exact substituted_word (h _ hw) (by simp)
  have hall := Substituted.flatMap hwords (isChain_parts r.value? h hseparate)
  rwa [List.flatMap_eq_nil_iff.mpr fun _ _ => rfl] at hall

/-- An expression whose words are written with their values has the value of what is then written. -/
theorem evaluateArithmetic_pasted (h : ∀ w ∈ ws, w.spelled) (hdigits : ∀ ds, .number ds ∈ ws → ds.all Char.isDigit)
    (hseparate : Word.Separate ws)
    (hσ : ∀ b n, .name b n ∈ ws → (on (valueOf n) r).1 = .ok (some (toString (σ n))))
    {e : Expr} {v : Int} (hwrites : Writes .sum e (ws.flatMap (Word.pasted σ))) (hv : e.exact = .ok v) :
    (on (evaluateArithmetic (Word.text ws)) r).1 = .ok (.number (.int v)) := by
  have hhead (b : Bool) (n : String) (hn : .name b n ∈ ws) : isHeaded Text.isNameChar n.toList := h (.name b n) hn
  have hlookup (b : Bool) (n : String) (hn : .name b n ∈ ws) : r.lookup n = .ok (some (toString (σ n))) :=
    lookup_of_valueOf (hhead b n hn) (hσ b n hn)
  have hvalue (b : Bool) (n : String) (hn : .name b n ∈ ws) : r.value? n = some (toString (σ n)) := by
    rw [value?, hlookup b n hn]
  have hbraced (n : String) (hn : n ∈ Word.braced ws) : r.isAvailable n = true ∧ r.inConflict n = false := by
    have hmem := Word.mem_braced.mp hn
    exact known_of_lookup (hhead true n hmem) (hlookup true n hmem)
  have hundefined : r.undefined (Word.braced ws) = [] := undefined_eq_nil.mpr fun n hn => (hbraced n hn).1
  have hconflict : (Word.braced ws).find? r.inConflict = none :=
    List.find?_eq_none.mpr fun n hn => by simp [(hbraced n hn).2]
  obtain ⟨s, hs, hexpand⟩ := (on_expand_words r h).2.2 hundefined hconflict
  have hsub := substituted_written h hseparate hvalue
  rw [← hs.value?] at hsub hexpand
  have hspaced := Word.spaced h hdigits fun i => hwrites.le_of_exact hv i
  have hexact := valueOf_exact hwrites hspaced
  rw [hv] at hexact
  have hevaluate : Arith.evaluate (String.ofList (ws.flatMap (Word.written σ))) = .ok (toString v) := by
    rw [Arith.evaluate, String.toList_ofList, show Arith.valueOf _ = .ok (.int v) from hexact]
    rfl
  rw [evaluateArithmetic_of_known hexpand hsub, hevaluate]
  refine congrArg Except.ok (Json.ofNumeral_eq_number.mpr (Json.Number.parse?_text_int ?_))
  have hle := Expr.le_of_exact hv
  constructor
  · rw [signedEnd]
    omega
  · rw [wordEnd]
    omega

/-- Names in arithmetic stand for the numbers that their values write, bare and in braces: an expression has the exact
value that it has with those numbers. Only where a name with a negative value stands directly before the sign of a power
is the value another one, since the value is put in as text. In every case the value is that of what is then written. -/
theorem evaluateArithmetic_names (hf : f.Writes .sum (ws.filter (!·.isBlank)))
    (hblank : ∀ c, .blank c ∈ ws → Arith.isBlank c)
    (hσ : ∀ b n, .name b n ∈ ws → (on (valueOf n) r).1 = .ok (some (toString (σ n)))) :
    let result := (on (evaluateArithmetic (Word.text ws)) r).1
    (¬NegativeBase σ (ws.filter (!·.isBlank)) → ∀ v, (f.assign σ).exact = .ok v → result = .ok (.number (.int v))) ∧
      ∀ e v, Writes .sum e (ws.flatMap (Word.pasted σ)) → e.exact = .ok v → result = .ok (.number (.int v)) := by
  have hsolid (w : Word) (hw : w ∈ ws) : w.isBlank ∨ w ∈ ws.filter (!·.isBlank) := by
    by_cases hw' : w.isBlank
    · exact .inl hw'
    · exact .inr (List.mem_filter.mpr ⟨hw, by simpa using hw'⟩)
  have hspelled : ∀ w ∈ ws, w.spelled := by
    intro w hw
    rcases hsolid w hw with hw' | hw'
    · cases w with
      | blank c => exact hblank c hw
      | _ => cases hw'
    · exact (hf.spelled w hw').1
  have hdigits : ∀ ds, .number ds ∈ ws → ds.all Char.isDigit := by
    intro ds hds
    exact (hf.spelled _ ((hsolid _ hds).resolve_left (by simp [Word.isBlank]))).2 ds rfl
  have hseparate : Word.Separate ws := by
    refine Word.separate_of_filter ?_
    rw [← List.append_nil (ws.filter _)]
    exact hf.separate .nil (by simp)
  have hvalue {e : Expr} {v : Int} (hwrites : Writes .sum e (ws.flatMap (Word.pasted σ))) (hv : e.exact = .ok v) :
      (on (evaluateArithmetic (Word.text ws)) r).1 = .ok (.number (.int v)) :=
    evaluateArithmetic_pasted hspelled hdigits hseparate hσ hwrites hv
  refine ⟨fun hsafe v hv => ?_, fun e v hwrites hv => hvalue hwrites hv⟩
  refine hvalue ?_ hv
  rw [← Word.flatMap_pasted_filter]
  exact (hf.pasted hsafe).resolve_right fun h => absurd h.1 (by decide)

/-- Negative values in a product and, in parentheses, before the sign of a power. -/
theorem evaluateArithmetic_names_signs :
    let surroundings : Surroundings := ⟨fun _ => none, fun _ => none, 0⟩
    let r : Resolver := { commandLine := [("a", "-2"), ("c", "-1")], env := [("b", "3")], surroundings, draws := ⟨id, 0⟩ }
    let σ (n : String) : Int := if n = "a" then -2 else if n = "b" then 3 else -1
    let f := Formula.binary .sub (.binary .mul (.name "a") (.name "b")) (.binary .pow (.name "c") (.literal 2))
    let ws : List Word := [.name true "a", .op .mul, .blank ' ', .name false "b", .op .sub, .opening, .name false "c",
      .closing, .op .pow, .number ['2']]
    f.Writes .sum (ws.filter (!·.isBlank)) ∧ (∀ c, .blank c ∈ ws → Arith.isBlank c) ∧
      (∀ b n, .name b n ∈ ws → (on (valueOf n) r).1 = .ok (some (toString (σ n)))) ∧
      ¬NegativeBase σ (ws.filter (!·.isBlank)) ∧ (f.assign σ).exact = .ok (-7) ∧
      (on (evaluateArithmetic (Word.text ws)) r).1 = .ok (.number (.int (-7))) := by
  intro surroundings r σ f ws
  have hname (b : Bool) (n : String) (hn : isHeaded Text.isNameChar n.toList) : Formula.Writes .atom (.name n) [.name b n] :=
    .name b hn
  have hf : f.Writes .sum (ws.filter (!·.isBlank)) := by
    have ha := hname true "a" (by decide)
    have hb := hname false "b" (by decide)
    have hc := hname false "c" (by decide)
    have htwo : Formula.Writes .atom (.literal 2) [.number ['2']] := @Formula.Writes.literal ['2'] (by decide) (by decide)
    have hproduct := @Formula.Writes.binary .mul _ _ _ _ ha.loose hb.loose
    have hpower := @Formula.Writes.binary .pow _ _ _ _ (.enclosed hc.loose) htwo.loose
    exact @Formula.Writes.binary .sub _ _ _ _ (.loosen hproduct) (.loosen (.loosen hpower))
  have hblank : ∀ c, .blank c ∈ ws → Arith.isBlank c := by
    intro c hc
    obtain rfl : c = ' ' := by simpa [ws] using hc
    decide
  have hσ : ∀ b n, .name b n ∈ ws → (on (valueOf n) r).1 = .ok (some (toString (σ n))) := by
    intro b n hn
    have hcases : n = "a" ∨ n = "b" ∨ n = "c" := by
      simp [ws] at hn
      tauto
    rcases hcases with rfl | rfl | rfl <;> decide +kernel
  have hsafe : ¬NegativeBase σ (ws.filter (!·.isBlank)) := by
    rintro ⟨b, n, hin, -⟩
    simp [ws, Word.isBlank, List.infix_cons_iff] at hin
  have hv : (f.assign σ).exact = .ok (-7) := by decide +kernel
  exact ⟨hf, hblank, hσ, hsafe, hv, (evaluateArithmetic_names hf hblank hσ).1 hsafe _ hv⟩

/-- The square of a name whose value is `-2` is four, but what is computed is the negation of the square of two. -/
theorem evaluateArithmetic_negative_base :
    let surroundings : Surroundings := ⟨fun _ => none, fun _ => none, 0⟩
    let r : Resolver := { commandLine := [("a", "-2")], surroundings, draws := ⟨id, 0⟩ }
    let σ (_ : String) : Int := -2
    let f := Formula.binary .pow (.name "a") (.literal 2)
    let ws : List Word := [.name false "a", .blank ' ', .op .pow, .blank ' ', .number ['2']]
    Word.text ws = "a ** 2" ∧ f.Writes .sum (ws.filter (!·.isBlank)) ∧
      (on (valueOf "a") r).1 = .ok (some (toString (σ "a"))) ∧ (f.assign σ).exact = .ok 4 ∧
      (on (evaluateArithmetic (Word.text ws)) r).1 = .ok (.number (.int (-4))) ∧
      (on (evaluateArithmetic (Word.text ws)) r).1 ≠ .ok (.number (.int 4)) := by
  intro surroundings r σ f ws
  have hf : f.Writes .sum (ws.filter (!·.isBlank)) := by
    have ha : Formula.Writes .atom (.name "a") [.name false "a"] := .name false (by decide)
    have htwo : Formula.Writes .atom (.literal 2) [.number ['2']] := @Formula.Writes.literal ['2'] (by decide) (by decide)
    exact .loosen (.loosen (.loosen (@Formula.Writes.binary .pow _ _ _ _ ha htwo.loose)))
  have hσ : (on (valueOf "a") r).1 = .ok (some (toString (σ "a"))) := by decide +kernel
  have hresult : (on (evaluateArithmetic (Word.text ws)) r).1 = .ok (.number (.int (-4))) := by
    have hpower : Writes .sum (.negative (.binary .pow (.literal 2) (.literal 2))) (ws.flatMap (Word.pasted σ)) :=
      .loosen (.loosen (.negative (.loosen (@Writes.binary .pow _ _ _ _ (.literal 2) (.loosen (.loosen (.literal 2)))))))
    refine evaluateArithmetic_pasted (by decide) ?_ ?_ ?_ hpower (by decide)
    · intro ds hds
      obtain rfl : ds = ['2'] := by simpa [ws] using hds
      decide
    · exact Word.separate_of_filter (by simp [ws, Word.isBlank, Word.Separate, Word.isOperand])
    · intro b n hn
      obtain ⟨rfl, rfl⟩ : b = false ∧ n = "a" := by simpa [ws] using hn
      exact hσ
  exact ⟨by decide, hf, hσ, by decide +kernel, hresult, by simp [hresult]⟩

end Resolve
end RequestLang

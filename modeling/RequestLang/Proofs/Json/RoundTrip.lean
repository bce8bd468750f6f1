import RequestLang.Proofs.Compile.Fields
import RequestLang.Proofs.Document.Pasted
import RequestLang.Proofs.Document.Printable

/-! JSON values through their terms: written, cut into tokens, read and evaluated, they come back with every member
in its place, and but for floats that the reader of numbers does not meet they are what they were. -/
namespace RequestLang
open Lexer Lexeme

namespace Json.Number

theorem le_ofDigitChars (n : Nat) (ds : List Char) : n ≤ Nat.ofDigitChars 10 ds n := by
  induction ds generalizing n with
  | nil => simp
  | cons d ds ih =>
    rw [Nat.ofDigitChars_cons]
    have hnext := ih (10 * n + (d.toNat - '0'.toNat))
    omega

/-- Digits are all taken up if their value stays within the limit. -/
theorem accumulate_eq {n : Nat} {ds : List Char} (h : Nat.ofDigitChars 10 ds n ≤ limit) :
    accumulate n ds = (Nat.ofDigitChars 10 ds n, []) := by
  induction ds generalizing n with
  | nil => simp [accumulate]
  | cons d ds ih =>
    rw [Nat.ofDigitChars_cons] at h ⊢
    have hnext : 10 * n + Numeral.digitValue d ≤ limit := (le_ofDigitChars _ ds).trans h
    simp only [accumulate, if_pos hnext]
    exact ih h

theorem head?_toDigits {n : Nat} (h : 0 < n) : (Nat.toDigits 10 n).head? ≠ some '0' := by
  induction n using Nat.strongRecOn with
  | ind n ih =>
    by_cases hn : n < 10
    · rw [Nat.toDigits_of_lt_base hn]
      interval_cases n <;> decide
    · have hdiv : 0 < n / 10 := Nat.div_pos (Nat.le_of_not_lt hn) (by decide)
      rw [Nat.toDigits_of_base_le (by decide) (Nat.le_of_not_lt hn),
        List.head?_append_of_ne_nil _ Nat.toDigits_ne_nil]
      exact ih (n / 10) (Nat.div_lt_self h (by decide)) hdiv

/-- The digits of a whole number within sixty-four bits are read as that number, before anything that does not go on
with it. -/
theorem readUnsigned_toDigits (negative : Bool) {n : Nat} (h : n ≤ limit) {rest : List Char}
    (hrest : Stops extendsNumber rest) :
    readUnsigned negative (Nat.toDigits 10 n ++ rest) = .ok (readUnsigned.whole negative n, rest) := by
  have hlead : ¬((Nat.toDigits 10 n).head? = some '0' ∧ 1 < (Nat.toDigits 10 n).length) := by
    rintro ⟨hhead, hlength⟩
    rcases Nat.eq_zero_or_pos n with rfl | hn
    · simp at hlength
    · exact head?_toDigits hn hhead
  have hvalue : accumulate 0 (Nat.toDigits 10 n) = (n, []) := by
    have hn := @Nat.ofDigitChars_ten_toDigits n
    rw [accumulate_eq (hn.symm ▸ h), hn]
  have hdigit : Stops Char.isDigit rest := fun c hc => by
    have := hrest c hc
    simp only [extendsNumber, Bool.or_eq_false_iff] at this
    exact this.1.1.1
  refine (readUnsigned_digits (Digits.ofNat n) hdigit).trans ((if_neg hlead).trans ?_)
  rw [show (Digits.ofNat n).chars = Nat.toDigits 10 n from rfl, hvalue]
  cases rest with
  | nil => rfl
  | cons c rest =>
    rw [stops_cons] at hrest
    simp_all [extendsNumber, afterDigits]

/-- The numbers that values hold: whole ones within sixty-four bits, and finite floats. -/
def Fits : Number → Prop
  | .int i => -signedEnd ≤ i ∧ i < wordEnd
  | .float x => (Number.float x).Finite

theorem Fits.finite {n : Number} (h : n.Fits) : n.Finite := by
  cases n with
  | int i => trivial
  | float x => exact h

/-- Whole numbers are read back from their texts, before anything that does not go on with them. -/
theorem read_text_int {i : Int} (h : (Number.int i).Fits) {rest : List Char} (hrest : Stops extendsNumber rest) :
    read ((Number.int i).text.toList ++ rest) = .ok (.int i, rest) := by
  obtain ⟨hlow, hhigh⟩ := h
  have hlimit : limit + 1 = wordEnd := rfl
  cases i with
  | ofNat n =>
    have hn : n ≤ limit := by
      have : n < wordEnd := Int.ofNat_lt.mp hhigh
      omega
    have htext : (Number.int (Int.ofNat n)).text.toList = Nat.toDigits 10 n := by
      rw [text, Int.toString_eq_repr, show (Int.ofNat n).repr = n.repr from rfl]
      simp
    obtain ⟨c, cs, hc⟩ := List.exists_cons_of_ne_nil (@Nat.toDigits_ne_nil n 10)
    have hdigit : c.isDigit := (Digits.ofNat n).digits c (by simp [Digits.ofNat, hc])
    have hminus : c ≠ '-' := by
      rintro rfl
      simp at hdigit
    have hread : read (Nat.toDigits 10 n ++ rest) = readUnsigned false (Nat.toDigits 10 n ++ rest) := by
      rw [hc, List.cons_append, read]
      simpa using hminus
    rw [htext, hread, readUnsigned_toDigits false hn hrest]
    rfl
  | negSucc n =>
    have hn : (n : Int) + 1 ≤ signedEnd := by
      rw [Int.negSucc_eq] at hlow
      omega
    have hword : signedEnd < (wordEnd : Int) := by decide
    have hlimit' : n + 1 ≤ limit := by omega
    have htext : (Number.int (Int.negSucc n)).text.toList = '-' :: Nat.toDigits 10 (n + 1) := by
      rw [text, Int.toString_eq_repr, show (Int.negSucc n).repr = "-" ++ (n + 1).repr from rfl]
      simp
    have hwhole : readUnsigned.whole true (n + 1) = .int (Int.negSucc n) := by
      have hsmall : ¬(n + 1 = 0 ∨ signedEnd < ((n + 1 : Nat) : Int)) :=
        not_or.mpr ⟨Nat.succ_ne_zero n, Int.not_lt.mpr hn⟩
      simp only [readUnsigned.whole, if_true, if_neg hsmall]
      rfl
    rw [htext, List.cons_append, read, readUnsigned_toDigits true hlimit' hrest, hwhole]

theorem parse?_text_int {i : Int} (h : (Number.int i).Fits) : parse? (Number.int i).text = some (.int i) := by
  have hread := read_text_int h (stops_nil _)
  rw [List.append_nil] at hread
  rw [parse?, hread]

end Json.Number

namespace Json

mutual

/-- The numbers of a value. -/
def numbers : Json → List Number
  | .number n => [n]
  | .arr items => itemNumbers items
  | .obj members => memberNumbers members
  | _ => []

def itemNumbers : List Json → List Number
  | [] => []
  | v :: vs => numbers v ++ itemNumbers vs

def memberNumbers : List (String × Json) → List Number
  | [] => []
  | (_, v) :: ms => numbers v ++ memberNumbers ms

end

mutual

/-- No object of a value has two members of one key. -/
def Distinct : Json → Prop
  | .arr items => DistinctItems items
  | .obj members => (members.map Prod.fst).Nodup ∧ DistinctMembers members
  | _ => True

def DistinctItems : List Json → Prop
  | [] => True
  | v :: vs => Distinct v ∧ DistinctItems vs

def DistinctMembers : List (String × Json) → Prop
  | [] => True
  | (_, v) :: ms => Distinct v ∧ DistinctMembers ms

end

mutual

/-- A value with each number read back from its text. -/
def reread : Json → Json
  | .null => .null
  | .bool b => .bool b
  | .number n => .ofNumeral n.text
  | .str s => .str s
  | .arr items => .arr (rereadItems items)
  | .obj members => .obj (rereadMembers members)

def rereadItems : List Json → List Json
  | [] => []
  | v :: vs => reread v :: rereadItems vs

def rereadMembers : List (String × Json) → List (String × Json)
  | [] => []
  | (k, v) :: ms => (k, reread v) :: rereadMembers ms

end

mutual

theorem finite_of_fits (v : Json) (h : ∀ n ∈ v.numbers, n.Fits) : v.Finite := by
  cases v with
  | null | bool | str => trivial
  | number n => exact (h n (by simp [numbers])).finite
  | arr items => exact finiteItems_of_fits items h
  | obj members => exact finiteMembers_of_fits members h

theorem finiteItems_of_fits (items : List Json) (h : ∀ n ∈ itemNumbers items, n.Fits) : FiniteItems items := by
  cases items with
  | nil => trivial
  | cons v vs =>
    rw [itemNumbers, List.forall_mem_append] at h
    exact ⟨finite_of_fits v h.1, finiteItems_of_fits vs h.2⟩

theorem finiteMembers_of_fits (members : List (String × Json)) (h : ∀ n ∈ memberNumbers members, n.Fits) :
    FiniteMembers members := by
  cases members with
  | nil => trivial
  | cons m ms =>
    rw [memberNumbers, List.forall_mem_append] at h
    exact ⟨finite_of_fits m.2 h.1, finiteMembers_of_fits ms h.2⟩

end

theorem ofNumeral_eq_number {text : String} {n : Number} :
    ofNumeral text = .number n ↔ Number.parse? text = some n := by
  unfold ofNumeral
  cases Number.parse? text <;> simp

mutual

/-- A value is what it was if all its numbers are. -/
theorem reread_eq_self (v : Json) : v.reread = v ↔ ∀ n ∈ v.numbers, Number.parse? n.text = some n := by
  cases v with
  | null | bool | str => simp [reread, numbers]
  | number n => simp [reread, numbers, ofNumeral_eq_number]
  | arr items => simpa [reread, numbers] using rereadItems_eq_self items
  | obj members => simpa [reread, numbers] using rereadMembers_eq_self members

theorem rereadItems_eq_self (items : List Json) :
    rereadItems items = items ↔ ∀ n ∈ itemNumbers items, Number.parse? n.text = some n := by
  cases items with
  | nil => simp [rereadItems, itemNumbers]
  | cons v vs =>
    rw [rereadItems, itemNumbers, List.cons.injEq, List.forall_mem_append, reread_eq_self v, rereadItems_eq_self vs]

theorem rereadMembers_eq_self (members : List (String × Json)) :
    rereadMembers members = members ↔ ∀ n ∈ memberNumbers members, Number.parse? n.text = some n := by
  cases members with
  | nil => simp [rereadMembers, memberNumbers]
  | cons m ms =>
    rw [rereadMembers, memberNumbers, List.cons.injEq, List.forall_mem_append, rereadMembers_eq_self ms, Prod.ext_iff,
      reread_eq_self m.2]
    simp

end

end Json

namespace Resolve

theorem evaluateKey_plain (k : JsonKey) : evaluateKey k.plain = evaluateKey k := by
  cases k <;> rfl

mutual

/-- What a term gives does not depend on its quotes. -/
theorem evaluate_plain (t : JsonTerm) : evaluate t.plain = evaluate t := by
  cases t with
  | null | bool | number | literal | reference | arithmetic => rfl
  | array items => rw [JsonTerm.plain, evaluate, evaluate, evaluateItems_plain items]
  | object members => rw [JsonTerm.plain, evaluate, evaluate, evaluateMembers_plain members]

theorem evaluateItems_plain (items : List JsonTerm) :
    evaluateItems (JsonTerm.plainItems items) = evaluateItems items := by
  cases items with
  | nil => rfl
  | cons t ts => rw [JsonTerm.plainItems, evaluateItems, evaluateItems, evaluate_plain t, evaluateItems_plain ts]

theorem evaluateMembers_plain (members : List (JsonKey × JsonTerm)) (acc : List (String × Json)) :
    evaluateMembers acc (JsonTerm.plainMembers members) = evaluateMembers acc members := by
  cases members with
  | nil => rfl
  | cons m ms =>
    simp only [JsonTerm.plainMembers, evaluateMembers, evaluateKey_plain, evaluate_plain m.2,
      evaluateMembers_plain ms]

end

mutual

/-- The term of a value gives the value with its numbers read back, whatever the resolver. -/
theorem gives_ofJson (v : Json) (hkeys : v.Distinct) (hholes : v.Holeless) :
    Gives (evaluate (.ofJson v)) v.reread := by
  cases v with
  | null | bool | number => exact gives_pure _
  | str s => exact (gives_expand (hholes s (by simp [Json.strings]))).bind (gives_pure _)
  | arr items => exact (gives_ofItems items hkeys hholes).bind (gives_pure _)
  | obj members => exact (gives_ofMembers members [] hkeys.1 hkeys.2 hholes).bind (gives_pure _)

theorem gives_ofItems (items : List Json) (hkeys : Json.DistinctItems items)
    (hholes : ∀ s ∈ Json.itemStrings items, Text.holds ['{', '{'] s.toList = false) :
    Gives (evaluateItems (JsonTerm.ofItems items)) (Json.rereadItems items) := by
  cases items with
  | nil => exact gives_pure _
  | cons v vs =>
    rw [Json.itemStrings, List.forall_mem_append] at hholes
    exact (gives_ofJson v hkeys.1 hholes.1).bind ((gives_ofItems vs hkeys.2 hholes.2).bind (gives_pure _))

/-- New keys go to the end, so that members stay in their order. -/
theorem gives_ofMembers (members acc : List (String × Json)) (hnodup : ((acc ++ members).map Prod.fst).Nodup)
    (hkeys : Json.DistinctMembers members)
    (hholes : ∀ s ∈ Json.memberStrings members, Text.holds ['{', '{'] s.toList = false) :
    Gives (evaluateMembers acc (JsonTerm.ofMembers members)) (acc ++ Json.rereadMembers members) := by
  cases members with
  | nil => simpa [Json.rereadMembers, JsonTerm.ofMembers, evaluateMembers] using gives_pure acc
  | cons m ms =>
    obtain ⟨k, v⟩ := m
    rw [Json.memberStrings, List.forall_mem_cons, List.forall_mem_append] at hholes
    have hnew : k ∉ acc.map Prod.fst := by
      rw [List.map_append, List.nodup_append] at hnodup
      exact fun hk => hnodup.2.2 k hk k (by simp) rfl
    have hrest : (((acc ++ [(k, v.reread)]) ++ ms).map Prod.fst).Nodup := by
      simpa using hnodup
    have hms := gives_ofMembers ms _ hrest hkeys.2 hholes.2.2
    rw [List.append_assoc, ← setKey_of_not_mem hnew] at hms
    have hkey : Gives (evaluateKey (.literal (.double k))) k := gives_expand hholes.1
    exact hkey.bind ((gives_ofJson v hkeys.1 hholes.2.1).bind hms)

end

end Resolve

namespace Json

/-- A value that is written as a term at any depth is cut into tokens, all of which are read as one term. With any
resolver, which stays as it is, the term gives the value with each number read back from its text. That is the
value itself exactly if its floats are read back, since whole numbers always are. -/
theorem evaluate_written_ofJson {v : Json} (hnumbers : ∀ n ∈ v.numbers, n.Fits) (hkeys : v.Distinct)
    (hholes : v.Holeless) (depth : Nat) :
    let text := (JsonTerm.ofJson v).written depth
    ∃ tokens t c, tokenize text = .ok tokens ∧ JsonTerm.read (.ofTokens text tokens) = .ok (t, c) ∧ c.ahead = [] ∧
      (∀ r, Resolve.on (Resolve.evaluate t) r = (.ok v.reread, r)) ∧
      (v.reread = v ↔ ∀ x, .float x ∈ v.numbers → Number.parse? (Number.float x).text = some (.float x)) := by
  intro text
  have hfinite := finite_of_fits v hnumbers
  have hlegible := JsonTerm.legible_ofJson v hfinite
  have hcalm := calm_of_not_mem (JsonTerm.slash_not_mem_ofJson depth v hfinite) []
  have hfalls := (JsonTerm.solid_lexemes depth _ hlegible).falls [] (by simp [Closed]) hcalm
  have htokens := tokenize_of_falls hfalls (JsonTerm.chars_lexemes depth _)
  have hends : JsonTerm.Ends [] := ⟨by simp, rfl⟩
  obtain ⟨t, b, hread, hplain⟩ := JsonTerm.read_lexemes hlegible (spells_lay 0 _) hends []
    (Text.byteSize text.toList)
  rw [List.append_nil] at hread
  refine ⟨_, t, _, htokens, hread, rfl, ?_, (reread_eq_self v).trans ?_⟩
  · rw [← Resolve.evaluate_plain, hplain, Resolve.evaluate_plain]
    exact Resolve.gives_ofJson v hkeys hholes
  · refine ⟨fun h x hx => h _ hx, fun h n hn => ?_⟩
    cases n with
    | int i => exact Number.parse?_text_int (hnumbers _ hn)
    | float x => exact h x hn

/-- Containers with nothing in them, quotes of both kinds, a negative number, and a float that is read back as one of
its neighbours. -/
def neighbouring (x : Float) : Json :=
  .obj [("it's \"quoted\"", .arr [.int (-5), .str "# \t//", .arr [], .obj []]), ("", .number (.float x))]

theorem evaluate_written_ofJson_neighbouring :
    let v := neighbouring 1e-23
    let text := (JsonTerm.ofJson v).written 1
    (∀ n ∈ v.numbers, n.Fits) ∧ v.Distinct ∧ v.Holeless ∧ v ≠ neighbouring 1.0000000000000001e-23 ∧
      ∃ tokens t c, tokenize text = .ok tokens ∧ JsonTerm.read (.ofTokens text tokens) = .ok (t, c) ∧ c.ahead = [] ∧
        ∀ r, Resolve.on (Resolve.evaluate t) r = (.ok (neighbouring 1.0000000000000001e-23), r) := by
  intro v text
  have hnumbers : ∀ n ∈ v.numbers, n.Fits := by
    have hfloat : (Number.float 1e-23).Fits := by
      unfold Number.Fits Number.Finite
      decide +kernel
    have hint : (Number.int (-5)).Fits := by
      unfold Number.Fits
      decide
    have hall : v.numbers = [.int (-5), .float 1e-23] := rfl
    rw [hall]
    simp [hint, hfloat]
  have hkeys : v.Distinct := by
    simp [v, neighbouring, Distinct, DistinctItems, DistinctMembers, int]
  have hholes : v.Holeless := by
    unfold Holeless
    decide
  have hfloat : (Number.float 1e-23).text = "1e-23" := by decide +kernel
  have hparse : Number.parse? "1e-23" = some (.float 1.0000000000000001e-23) := rfl
  have hreread : v.reread = neighbouring 1.0000000000000001e-23 := by
    have hint : Number.parse? (Number.int (-5)).text = some (.int (-5)) := rfl
    simp [v, neighbouring, reread, rereadItems, rereadMembers, int, hint, hfloat, ofNumeral, hparse]
  obtain ⟨tokens, t, c, htokens, hread, hahead, hgives, hself⟩ := evaluate_written_ofJson hnumbers hkeys hholes 1
  rw [hreread] at hgives hself
  refine ⟨hnumbers, hkeys, hholes, fun h => ?_, tokens, t, c, htokens, hread, hahead, hgives⟩
  have hsame := hself.mp h.symm 1e-23 (by simp [v, neighbouring, numbers, itemNumbers, memberNumbers])
  rw [hfloat, hparse, Option.some.injEq, Number.float.injEq] at hsame
  exact absurd (congrArg Float.toBits hsame) (by decide +kernel)

end Json
end RequestLang

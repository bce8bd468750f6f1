import RequestLang.Proofs.Arith.Words
import RequestLang.Proofs.Document.Gapped
import RequestLang.Proofs.Json.RoundTrip
import RequestLang.Proofs.Property.Substitution

/-! Numbers below zero. A text that begins with a minus is arithmetic, unless what stands behind the minus is a number:
then the whole is the text of a number, and JSON does not spell every number as arithmetic does. -/
namespace RequestLang
open Lexer Lexeme

namespace Text

/-- What trimming takes off. -/
theorem exists_trimChars (cs : List Char) :
    ∃ g g', cs = g ++ (trimChars cs ++ g') ∧ (∀ c ∈ g, isBlank c) ∧ ∀ c ∈ g', isBlank c := by
  refine ⟨cs.takeWhile isBlank, ((trimLeft cs).reverse.takeWhile isBlank).reverse, ?_, ?_, ?_⟩
  · rw [trimChars, trimRight, ← List.reverse_append, List.takeWhile_append_dropWhile, List.reverse_reverse, trimLeft,
      List.takeWhile_append_dropWhile]
  · exact fun c hc => List.mem_takeWhile_imp hc
  · exact fun c hc => List.mem_takeWhile_imp (List.mem_reverse.mp hc)

theorem trimChars_append_of_blank {g : List Char} (hg : ∀ c ∈ g, isBlank c) (cs : List Char) :
    trimChars (cs ++ g) = trimChars cs := by
  rw [trimChars, trimLeft, List.dropWhile_append, trimChars]
  split
  · rename_i hempty
    have hnone : g.dropWhile isBlank = [] := List.dropWhile_eq_nil_iff.mpr hg
    rw [trimLeft, List.isEmpty_iff.mp hempty, hnone]
  · exact trimRight_append_of_blank hg _

end Text

namespace Arith
variable {cs : List Char} {i : Int}

/-- Of the blanks, those that arithmetic is made of part its symbols. -/
theorem isBlank_of_isLegible {c : Char} (hc : isLegible c) (hblank : Text.isBlank c) : isBlank c := by
  by_contra hplain
  have hmark : c.isDigit ∨ c ∈ ['.', 'e', 'E', '(', ')', '+', '-', '*', '/', '%'] := by
    simpa [isLegible, hplain, isNumberChar, or_assoc] using hc
  have hfree : Text.isBlank c = false := by
    rcases hmark with hdigit | hmark
    · exact Text.isBlank_of_isNameChar (by simp [Text.isNameChar, Char.isAlphanum, hdigit])
    · fin_cases hmark <;> decide
  rw [hblank] at hfree
  cases hfree

theorem textBlank_of_isBlank {c : Char} (hc : isBlank c) : Text.isBlank c := by
  rcases isBlank_iff.mp hc with rfl | rfl | rfl | rfl <;> decide

theorem symbolsOf_append_gap {gap : List Char} (hgap : ∀ c ∈ gap, isBlank c) (cs : List Char) :
    symbolsOf (cs ++ gap) = symbolsOf cs := by
  by_cases hne : gap = []
  · rw [hne, List.append_nil]
  · have happend := symbolsOf_append_blanks hne hgap cs []
    rw [List.append_nil] at happend
    rw [happend]
    cases symbolsOf cs with
    | error f => rfl
    | ok ss => exact congrArg Except.ok (List.append_nil ss)

theorem exists_symbolsOf {v : Number} (h : valueOf cs = .ok v) : ∃ ss, symbolsOf cs = .ok ss := by
  obtain ⟨ss, hss, -⟩ := bind_eq_ok.mp h
  exact ⟨ss, hss⟩

theorem fits_of_valueOf {v : Number} (h : valueOf cs = .ok v) : v.Fits := by
  obtain ⟨ss, hss, h⟩ := bind_eq_ok.mp h
  split at h
  · cases h
  obtain ⟨⟨w, rest⟩, hsum, h⟩ := bind_eq_ok.mp h
  dsimp only at h
  split at h
  · cases h
    exact (Call.keepsFit (6 * ss.length + 6) (.sum ss) v rest (allFit_symbols hss) hsum).1
  · cases h

/-- The blanks at the ends of arithmetic do not count. -/
theorem symbolsOf_trimChars {ss : List Symbol} (h : symbolsOf cs = .ok ss) : symbolsOf (Text.trimChars cs) = .ok ss := by
  obtain ⟨g, g', hcs, hg, hg'⟩ := Text.exists_trimChars cs
  have hlegible := (takenApart_of_symbolsOf h).legible
  have hblank {c : Char} (hmem : c ∈ cs) (hc : Text.isBlank c) : isBlank c := isBlank_of_isLegible (hlegible c hmem) hc
  rw [hcs, symbolsOf_blanks fun c hc => hblank (by rw [hcs]; simp [hc]) (hg c hc),
    symbolsOf_append_gap fun c hc => hblank (by rw [hcs]; simp [hc]) (hg' c hc)] at h
  exact h

end Arith

namespace Numeral
variable {negative : Bool} {cs : List Char}

theorem exponent_of_exponent? (h : (exponent? cs).isSome) : Arith.Exponent cs [] := by
  have hdigits {ds : List Char} {x : Int} (h : (if ds.isEmpty || !ds.all Char.isDigit then none else some x).isSome) :
      ∀ c ∈ ds, c.isDigit := by
    split at h
    · cases h
    · rename_i hds
      simp only [Bool.or_eq_true, Bool.not_eq_true', not_or, Bool.not_eq_false, List.all_eq_true] at hds
      exact hds.2
  cases cs with
  | nil => exact .none nofun
  | cons e cs =>
    simp only [exponent?] at h
    split at h
    · rename_i he
      split at h
      · exact .signed he (.inr rfl) (hdigits h) (stops_nil _)
      · exact .signed he (.inl rfl) (hdigits h) (stops_nil _)
      · have hds := hdigits h
        refine .unsigned he (fun c hc => ?_) hds (stops_nil _)
        rw [List.append_nil] at hc
        have hc := hds c (List.mem_of_mem_head? hc)
        constructor <;> (rintro rfl; simp at hc)
    · cases h

theorem toLower_of_isDigit {c : Char} (hc : c.isDigit) : c.toLower = c := by
  rw [Char.toLower, dif_neg]
  simp only [Char.isDigit, Bool.and_eq_true, decide_eq_true_eq, ge_iff_le, UInt32.le_iff_toNat_le] at hc ⊢
  have hA : 'A'.val.toNat = 65 := rfl
  have h9 : '9'.val.toNat = 57 := rfl
  omega

theorem exists_sign_of_read? (h : (read? cs).isSome) :
    ∃ sign ds negative, cs = sign ++ ds ∧ sign ∈ [[], ['+'], ['-']] ∧ (unsigned? negative ds).isSome := by
  unfold read? at h
  split at h
  · exact ⟨['-'], _, _, rfl, by decide, h⟩
  · exact ⟨['+'], _, _, rfl, by decide, h⟩
  · exact ⟨[], _, _, rfl, by decide, h⟩

/-- The names of numbers all have a letter that arithmetic does not know. -/
theorem toLower_ne_of_isLegible {c : Char} (hc : Arith.isLegible c) : c.toLower ≠ 'n' := by
  have hmark : c.isDigit ∨ c ∈ [' ', '\t', '\n', '\r', '.', 'e', 'E', '(', ')', '+', '-', '*', '/', '%'] := by
    simpa [Arith.isLegible, Arith.isBlank, Arith.isNumberChar, or_assoc, or_comm, or_left_comm] using hc
  rcases hmark with hdigit | hmark
  · rw [toLower_of_isDigit hdigit]
    rintro rfl
    simp at hdigit
  · fin_cases hmark <;> decide

/-- Legible text that is read as a number without a sign is one number of arithmetic. -/
theorem numberLength_of_unsigned? (h : (unsigned? negative cs).isSome) (hcs : ∀ c ∈ cs, Arith.isLegible c) :
    (∃ c ds, cs = c :: ds ∧ Arith.isNumberChar c) ∧ Arith.numberLength cs = cs.length := by
  have hname {name : List Char} (hn : 'n' ∈ name) : lower cs ≠ name := by
    rintro rfl
    obtain ⟨c, hc, hlower⟩ := List.mem_map.mp hn
    exact toLower_ne_of_isLegible (hcs c hc) hlower
  have hdigit {c : Char} (hc : c.isDigit) : Arith.isNumberChar c := by simp [Arith.isNumberChar, hc]
  have hshape {body left : List Char} (hbody : ∀ c ∈ body, Arith.isNumberChar c) (hne : body ≠ [])
      (hleft : (exponent? left).isSome) : (∃ c ds, body ++ left = c :: ds ∧ Arith.isNumberChar c) ∧
        Arith.numberLength (body ++ left) = (body ++ left).length := by
    have hlength := Arith.numberLength_exponent hbody (exponent_of_exponent? hleft)
    rw [List.append_nil] at hlength
    obtain ⟨c, ds, rfl⟩ := List.exists_cons_of_ne_nil hne
    exact ⟨⟨c, ds ++ left, rfl, hbody c List.mem_cons_self⟩, by rw [hlength, List.length_append]⟩
  simp only [unsigned?] at h
  rw [if_neg (not_or.mpr ⟨hname (by decide), hname (by decide)⟩), if_neg (hname (by decide))] at h
  clear hname hcs
  obtain ⟨whole, rest, rfl, hwhole, hrest⟩ := exists_run Char.isDigit cs
  rw [takeWhile_append_of_stops hwhole hrest, dropWhile_append_of_stops hwhole hrest] at h
  split at h
  · rename_i ds
    obtain ⟨fraction, left, rfl, hfraction, hleft⟩ := exists_run Char.isDigit ds
    rw [dropWhile_append_of_stops hfraction hleft] at h
    split at h
    · cases h
    · rw [Option.isSome_map] at h
      have hbody : ∀ c ∈ whole ++ '.' :: fraction, Arith.isNumberChar c := by
        refine List.forall_mem_append.mpr ⟨fun c hc => hdigit (hwhole c hc), List.forall_mem_cons.mpr ⟨by decide, ?_⟩⟩
        exact fun c hc => hdigit (hfraction c hc)
      simpa using hshape hbody (by simp) h
  · split at h
    · cases h
    · rename_i hne
      rw [Option.isSome_map] at h
      exact hshape (fun c hc => hdigit (hwhole c hc)) (by simpa using hne) h

end Numeral

namespace Arith
variable {cs : List Char} {ss : List Symbol} {i : Int}

/-- What is read as a number is one symbol. -/
theorem symbolsOf_of_unsigned? {negative : Bool} (h : (Numeral.unsigned? negative cs).isSome) (hss : symbolsOf cs = .ok ss) :
    ∃ v, number? cs = some v ∧ ss = [.number v] := by
  obtain ⟨⟨c, ds, rfl, hc⟩, hlength⟩ := Numeral.numberLength_of_unsigned? h (takenApart_of_symbolsOf hss).legible
  have htake : (c :: ds).take (numberLength (c :: ds)) = c :: ds := by rw [hlength, List.take_length]
  cases hv : number? (c :: ds) with
  | none =>
    have hrefused : Refused (c :: ds) _ := .number hc (by rw [htake, hv])
    rw [symbolsOf, hrefused.symbols_eq] at hss
    cases hss
  | some v =>
    have htakes : Takes (c :: ds) [.number v] [] := .number hc (by rw [List.append_nil, hlength]) hv
    have hread := htakes.symbolsOf_eq
    rw [List.append_nil, hss] at hread
    exact ⟨v, rfl, Except.ok.inj hread⟩

theorem digits_of_number? (h : number? cs = some (.int i)) :
    cs ≠ [] ∧ cs.all Char.isDigit ∧ fitsSigned (Numeral.ofDigits cs) ∧ i = Numeral.ofDigits cs := by
  simp only [number?] at h
  split at h
  · rename_i hwhole
    simp only [Bool.and_eq_true, Bool.not_eq_true', List.isEmpty_eq_false_iff] at hwhole
    cases h
    exact ⟨hwhole.1.2, hwhole.1.1, hwhole.2, rfl⟩
  · obtain ⟨n, -, hn⟩ := Option.map_eq_some_iff.mp h
    cases hn

theorem symbolsOf_minus (cs : List Char) : symbolsOf ('-' :: cs) = (symbolsOf cs).map ([.op .sub] ++ ·) :=
  (show Takes ['-'] [.op .sub] cs from .op .sub nofun).symbolsOf_eq

theorem symbolsOf_plus (cs : List Char) : symbolsOf ('+' :: cs) = (symbolsOf cs).map ([.op .add] ++ ·) :=
  (Takes.op .add nofun).symbolsOf_eq

/-- A minus before a number that may have a sign of its own. -/
theorem valueOf_minus {sign : List Char} {v : Number} (hsign : sign ∈ [[], ['+'], ['-']])
    (h : symbolsOf cs = .ok [.number v]) :
    valueOf ('-' :: (sign ++ cs)) = .ok (if sign = ['-'] then v.neg.neg else v.neg) := by
  have hvalue (s : Symbol) (ss : List Symbol) {ds : List Char} {w : Number} (hds : symbolsOf ds = .ok (s :: ss))
      (hsum : sum (6 * (s :: ss).length + 6) (s :: ss) = .ok (w, [])) : valueOf ds = .ok w := by
    show (symbolsOf ds >>= _) = _
    rw [hds]
    show (sum (6 * (s :: ss).length + 6) (s :: ss) >>= _) = _
    rw [hsum]
    rfl
  simp only [List.mem_cons, List.not_mem_nil, or_false] at hsign
  rcases hsign with rfl | rfl | rfl
  · refine hvalue (.op .sub) [.number v] ?_ rfl
    rw [List.nil_append, symbolsOf_minus, h]
    rfl
  · refine hvalue (.op .sub) [.op .add, .number v] ?_ rfl
    rw [List.singleton_append, symbolsOf_minus, symbolsOf_plus, h]
    rfl
  · refine hvalue (.op .sub) [.op .sub, .number v] ?_ rfl
    rw [List.singleton_append, symbolsOf_minus, symbolsOf_minus, h]
    rfl

/-- Where the value is whole, a number that stands behind a minus is written in digits, perhaps with another sign. -/
theorem digits_of_valueOf (h : valueOf ('-' :: cs) = .ok (.int i)) (hread : (Numeral.read? cs).isSome) :
    ∃ sign ds, cs = sign ++ ds ∧ sign ∈ [[], ['+'], ['-']] ∧ ds ≠ [] ∧ ds.all Char.isDigit ∧
      fitsSigned (Numeral.ofDigits ds) ∧
      i = if sign = ['-'] then (Numeral.ofDigits ds : Int) else -(Numeral.ofDigits ds : Int) := by
  obtain ⟨sign, ds, negative, rfl, hsign, hunsigned⟩ := Numeral.exists_sign_of_read? hread
  obtain ⟨ss, hss⟩ := exists_symbolsOf h
  obtain ⟨ss, hss, -⟩ := map_eq_ok.mp (symbolsOf_minus _ ▸ hss)
  obtain ⟨ss, hds⟩ : ∃ ss, symbolsOf ds = .ok ss := by
    simp only [List.mem_cons, List.not_mem_nil, or_false] at hsign
    rcases hsign with rfl | rfl | rfl
    · exact ⟨ss, hss⟩
    · obtain ⟨ss, hds, -⟩ := map_eq_ok.mp (symbolsOf_plus _ ▸ hss)
      exact ⟨ss, hds⟩
    · obtain ⟨ss, hds, -⟩ := map_eq_ok.mp (symbolsOf_minus _ ▸ hss)
      exact ⟨ss, hds⟩
  obtain ⟨v, hv, rfl⟩ := symbolsOf_of_unsigned? hunsigned hds
  rw [valueOf_minus hsign hds] at h
  have h := Except.ok.inj h
  cases v with
  | float x => split at h <;> cases h
  | int n =>
    obtain ⟨hne, hall, hfits, rfl⟩ := digits_of_number? hv
    have hneg : fitsSigned (-(Numeral.ofDigits ds : Int)) := by
      rw [fitsSigned_iff, signedEnd] at hfits ⊢
      omega
    have hback : fitsSigned (- -(Numeral.ofDigits ds : Int)) := (Int.neg_neg _).symm ▸ hfits
    refine ⟨sign, ds, rfl, hsign, hne, hall, hfits, ?_⟩
    rw [Number.neg_int hneg] at h
    split at h
    · rename_i hminus
      rw [if_pos hminus]
      rw [Number.neg_int hback, Int.neg_neg] at h
      exact (Number.int.inj h).symm
    · rename_i hminus
      rw [if_neg hminus]
      exact (Number.int.inj h).symm

end Arith

namespace Json.Number
variable {ds : List Char}

/-- What a number that stands behind a minus is as JSON. -/
theorem parse?_minus (hne : ds ≠ []) (hds : ds.all Char.isDigit) (hfits : fitsSigned (Numeral.ofDigits ds)) :
    parse? (String.ofList ('-' :: ds)) =
      if ds.head? = some '0' ∧ 1 < ds.length then none else some (readUnsigned.whole true (Numeral.ofDigits ds)) := by
  have hdigits : ∀ c ∈ ds, c.isDigit := List.all_eq_true.mp hds
  have hvalue : Nat.ofDigitChars 10 ds 0 = Numeral.ofDigits ds := rfl
  have hlimit : Numeral.ofDigits ds ≤ limit := by
    rw [Arith.fitsSigned_iff, signedEnd] at hfits
    rw [limit, wordEnd]
    omega
  have hsum : accumulate 0 ds = (Nat.ofDigitChars 10 ds 0, []) := accumulate_eq (by rwa [hvalue])
  rw [parse?, String.toList_ofList, read, readUnsigned, List.takeWhile_eq_self_iff.mpr hdigits,
    List.dropWhile_eq_nil_iff.mpr hdigits, if_neg (by simpa using hne), hsum, hvalue]
  by_cases hlead : ds.head? = some '0' ∧ 1 < ds.length
  · rw [if_pos hlead, if_pos hlead]
    rfl
  · rw [if_neg hlead, if_neg hlead]
    rfl

theorem ofDigits_pos (hne : ds ≠ []) (hds : ds.all Char.isDigit) (hlead : ds.head? ≠ some '0') :
    0 < Numeral.ofDigits ds := by
  obtain ⟨d, ds, rfl⟩ := List.exists_cons_of_ne_nil hne
  have hdigit := List.all_eq_true.mp hds d List.mem_cons_self
  have hpos : 0 < Numeral.digitValue d := by
    by_contra hzero
    refine hlead (congrArg some (Char.ext (UInt32.toNat_inj.mp ?_)))
    simp only [Char.isDigit, Bool.and_eq_true, decide_eq_true_eq, ge_iff_le, UInt32.le_iff_toNat_le] at hdigit
    have hvalue : Numeral.digitValue d = d.val.toNat - '0'.val.toNat := rfl
    omega
  have hle : 10 * 0 + Numeral.digitValue d ≤ Nat.ofDigitChars 10 ds (10 * 0 + Numeral.digitValue d) := le_ofDigitChars _ ds
  have hcons : Numeral.ofDigits (d :: ds) = Nat.ofDigitChars 10 ds (10 * 0 + Numeral.digitValue d) := rfl
  omega

/-- JSON knows no number with two signs. -/
theorem parse?_signs {sign : Char} (hsign : sign = '+' ∨ sign = '-') (ds : List Char) :
    parse? (String.ofList ('-' :: sign :: ds)) = none := by
  rw [parse?, String.toList_ofList, read, readUnsigned]
  rcases hsign with rfl | rfl <;> rfl

end Json.Number

/-- Of the numbers that stand behind a minus, JSON has those without another sign and without a zero in front. -/
theorem Json.ofNumeral_minus {sign ds : List Char} (hsign : sign ∈ [[], ['+'], ['-']]) (hne : ds ≠ [])
    (hds : ds.all Char.isDigit) (hfits : fitsSigned (Numeral.ofDigits ds)) :
    let value := ofNumeral (String.ofList ('-' :: (sign ++ ds)))
    if sign = [] ∧ ds.head? ≠ some '0' then value = .int (-(Numeral.ofDigits ds : Int))
    else if sign ++ ds = ['0'] then ∃ x, value = .number (.float x)
    else value = .str (String.ofList ('-' :: (sign ++ ds))) := by
  intro value
  simp only [List.mem_cons, List.not_mem_nil, or_false] at hsign
  by_cases hplain : sign = []
  · subst hplain
    have hparse := Number.parse?_minus hne hds hfits
    by_cases hlead : ds.head? = some '0'
    · rw [if_neg (by simp [hlead])]
      by_cases hzero : ds = ['0']
      · subst hzero
        rw [List.nil_append, if_pos rfl]
        exact ⟨_, rfl⟩
      · rw [List.nil_append, if_neg hzero]
        have hlong : 1 < ds.length := by
          obtain ⟨ds, rfl⟩ := List.head?_eq_some_iff.mp hlead
          cases ds with
          | nil => exact absurd rfl hzero
          | cons d ds => simp
        rw [if_pos ⟨hlead, hlong⟩] at hparse
        simp only [value, List.nil_append, ofNumeral, hparse]
    · rw [if_pos ⟨rfl, hlead⟩]
      have hpos := Number.ofDigits_pos hne hds hlead
      rw [Arith.fitsSigned_iff] at hfits
      have hwhole : Number.readUnsigned.whole true (Numeral.ofDigits ds) = .int (-(Numeral.ofDigits ds : Int)) := by
        rw [Number.readUnsigned.whole, if_pos rfl, if_neg (not_or.mpr ⟨hpos.ne', by omega⟩)]
      rw [if_neg fun h => hlead h.1, hwhole] at hparse
      simp only [value, List.nil_append, ofNumeral, hparse]
      rfl
  · obtain ⟨c, rfl, hc⟩ : ∃ c, sign = [c] ∧ (c = '+' ∨ c = '-') := by
      rcases hsign with rfl | rfl | rfl
      · exact absurd rfl hplain
      · exact ⟨'+', rfl, .inl rfl⟩
      · exact ⟨'-', rfl, .inr rfl⟩
    have hzero : [c] ++ ds ≠ ['0'] := by
      rcases hc with rfl | rfl <;> simp
    rw [if_neg fun h => hplain h.1, if_neg hzero]
    simp only [value, List.singleton_append, ofNumeral, Number.parse?_signs hc]

namespace JsonTerm

/-- A text without comments that begins with a minus and is read as one term, with the term. -/
theorem ofArithmetic_of_read {text : String} {ts : List Token} {t : JsonTerm} {c : Cursor} (hts : tokenize text = .ok ts)
    (hread : read (.ofTokens text ts) = .ok (t, c)) (hend : ∀ u ∈ c.ahead, u.isIgnorable)
    {behind : List Char} (hminus : text.toList = '-' :: behind) (hcomment : ¬Commented text.toList) :
    ∃ cs gap, behind = cs ++ gap ∧ (∀ c ∈ gap, Arith.isBlank c) ∧ t = ofArithmetic ('-' :: cs) := by
  have hblank := blank_of_isIgnorable hts hcomment
  have htext := flatMap_of_scan hts
  obtain ⟨us, rfl⟩ : ∃ us, ts = ⟨.operator, "-", 0⟩ :: us := by
    rw [tokenize, hminus] at hts
    have hcut := scan_cuts (l := op "-") (cuts_op (by decide) behind) 0
    rw [show (op "-").text.toList ++ behind = '-' :: behind from rfl, hts] at hcut
    obtain ⟨us, -, hus⟩ := map_eq_ok.mp hcut.symm
    exact ⟨us, hus.symm⟩
  generalize hc₀ : Cursor.ofTokens text (⟨.operator, "-", 0⟩ :: us) = c₀ at hread
  have hskip : c₀.skip = c₀ := by
    rw [← hc₀, Cursor.ofTokens, Cursor.skip_cons]
    rfl
  have hahead : c₀.ahead = ⟨.operator, "-", 0⟩ :: us := by rw [← hc₀, Cursor.ofTokens]
  have htoken : c₀.token? = some ⟨.operator, "-", 0⟩ := by rw [Cursor.token?, hahead]; rfl
  rw [read, readWithin, hskip, htoken] at hread
  dsimp only at hread
  rw [if_pos (by rfl), readArithmetic, hahead] at hread
  rcases hrun : arithmeticRun 0 true (⟨.operator, "-", 0⟩ :: us) with ⟨n, depth, wanting⟩
  rw [hrun] at hread
  dsimp only at hread
  split at hread
  · cases hread
  cases hread
  generalize (⟨.operator, "-", 0⟩ :: us : List Token) = ts at *
  obtain ⟨gs, hgs, hgap⟩ := core_append (ts.take n)
  have hsplit : ts = core (ts.take n) ++ (gs ++ ts.drop n) := by
    rw [← List.append_assoc, ← hgs, List.take_append_drop]
  have hbehind : ∀ u ∈ gs ++ ts.drop n, u.isIgnorable := List.forall_mem_append.mpr ⟨hgap, hend⟩
  have hgap : ∀ c ∈ (gs ++ ts.drop n).flatMap (·.text.toList), Arith.isBlank c := by
    intro c hc
    obtain ⟨u, hu, hc⟩ := List.mem_flatMap.mp hc
    exact hblank u (hsplit ▸ List.mem_append_right _ hu) (hbehind u hu) c hc
  rw [hsplit, List.flatMap_append, hminus] at htext
  -- the run is not empty, since a minus is no blank
  cases hcs : runText (ts.take n) with
  | nil =>
    rw [show (core (ts.take n)).flatMap _ = [] from hcs, List.nil_append] at htext
    exact absurd (hgap '-' (htext ▸ List.mem_cons_self)) (by decide)
  | cons d cs =>
    rw [show (core (ts.take n)).flatMap _ = d :: cs from hcs] at htext
    obtain ⟨rfl, hbehind⟩ := List.cons.inj htext
    exact ⟨cs, _, hbehind.symm, hgap, rfl⟩

end JsonTerm

namespace Resolve

/-- Arithmetic that has a value as it stands has it with every resolver. -/
theorem evaluateArithmetic_of_valueOf {cs : List Char} {v : Arith.Number} (h : Arith.valueOf cs = .ok v) (r : Resolver) :
    (on (evaluateArithmetic (String.ofList cs)) r).1 = .ok (.ofNumeral v.text) := by
  obtain ⟨ss, hss⟩ := Arith.exists_symbolsOf h
  have hapart := Arith.takenApart_of_symbolsOf hss
  have hholes : Text.holds ['{', '{'] (String.ofList cs).toList = false := by
    rw [String.toList_ofList, ← Bool.not_eq_true, Text.holds_iff_infix (by simp)]
    intro hin
    exact absurd (hapart.legible '{' (hin.subset List.mem_cons_self)) (by decide)
  rw [evaluateArithmetic_of_known (gives_expand hholes r) (.of_not_exposed hapart.not_exposed), Arith.evaluate,
    String.toList_ofList, h]
  rfl

end Resolve

namespace JsonTerm
open Resolve

/-- The value of a text that begins with a minus, where the value that it has as arithmetic is whole. If what stands
behind the minus is no number, the two are the same. If it is one, it is written in digits, perhaps with another sign:
then the two are the same where JSON writes the number in this way, and else the value is the text itself, or a zero
below zero. -/
theorem evaluate_negative {text : String} {ts : List Token} {t : JsonTerm} {c : Cursor} {i : Int}
    (hts : tokenize text = .ok ts) (hread : read (.ofTokens text ts) = .ok (t, c)) (hend : ∀ u ∈ c.ahead, u.isIgnorable)
    (hminus : text.toList.head? = some '-') (hvalue : Arith.valueOf text.toList = .ok (.int i)) (r : Resolver) :
    let behind := Text.trimChars text.toList.tail
    let value := (on (evaluate t) r).1
    Numeral.read? behind = none ∧ value = .ok (.int i) ∨
      ∃ sign digits, behind = sign ++ digits ∧ sign ∈ [[], ['+'], ['-']] ∧ digits ≠ [] ∧ digits.all Char.isDigit ∧
        if sign = [] ∧ digits.head? ≠ some '0' then value = .ok (.int i)
        else if behind = ['0'] then ∃ x, value = .ok (.number (.float x))
        else value = .ok (.str (String.ofList ('-' :: behind))) := by
  intro behind value
  obtain ⟨rest, htext⟩ := List.head?_eq_some_iff.mp hminus
  have hcomment : ¬Commented text.toList := by
    intro hc
    refine Arith.evaluate_commented hc (Arith.Number.int i).text ?_
    rw [Arith.evaluate, String.toList_ofList, hvalue]
    rfl
  obtain ⟨cs, gap, rfl, hgap, rfl⟩ := ofArithmetic_of_read hts hread hend htext hcomment
  have hbehind : behind = Text.trimChars cs := by
    simp only [behind, htext, List.tail_cons]
    exact Text.trimChars_append_of_blank (fun c hc => Arith.textBlank_of_isBlank (hgap c hc)) cs
  have hrun : Arith.valueOf ('-' :: cs) = .ok (.int i) := by
    rw [htext, ← List.cons_append] at hvalue
    rwa [Arith.valueOf_congr (Arith.symbolsOf_append_gap hgap _)] at hvalue
  have hdigits : Arith.valueOf ('-' :: behind) = .ok (.int i) := by
    obtain ⟨ss, hss⟩ := Arith.exists_symbolsOf hrun
    obtain ⟨ss, hss, -⟩ := map_eq_ok.mp (Arith.symbolsOf_minus _ ▸ hss)
    rw [← hrun]
    refine Arith.valueOf_congr ?_
    rw [Arith.symbolsOf_minus, Arith.symbolsOf_minus, hbehind, Arith.symbolsOf_trimChars hss, hss]
  cases hnumeral : Numeral.read? behind with
  | none =>
    refine .inl ⟨rfl, ?_⟩
    simp only [value, ofArithmetic, ← hbehind, hnumeral]
    rw [if_neg (by simp), evaluate, evaluateArithmetic_of_valueOf hrun]
    refine congrArg Except.ok (Json.ofNumeral_eq_number.mpr (Json.Number.parse?_text_int ?_))
    have hfits := Arith.fitsSigned_iff.mp (Arith.fits_of_valueOf hrun)
    rw [signedEnd] at hfits
    constructor
    · rw [signedEnd]
      omega
    · rw [wordEnd]
      omega
  | some n =>
    obtain ⟨sign, digits, hsplit, hsign, hne, hall, hfits, hi⟩ := Arith.digits_of_valueOf hdigits (by rw [hnumeral]; rfl)
    refine .inr ⟨sign, digits, hsplit, hsign, hne, hall, ?_⟩
    have hvalue : value = .ok (.ofNumeral (String.ofList ('-' :: behind))) := by
      simp only [value, ofArithmetic, ← hbehind, hnumeral]
      rfl
    have hjson := Json.ofNumeral_minus hsign hne hall hfits
    rw [← hsplit] at hjson
    rw [hvalue]
    split
    · rename_i hplain
      rw [if_pos hplain] at hjson
      rw [hjson, hi, if_neg (by simp [hplain.1])]
    · rename_i hplain
      rw [if_neg hplain] at hjson
      split
      · rename_i hzero
        rw [if_pos hzero] at hjson
        obtain ⟨x, hx⟩ := hjson
        exact ⟨x, congrArg Except.ok hx⟩
      · rename_i hzero
        rw [if_neg hzero] at hjson
        rw [hjson]

/-- A second minus makes a text of a number. -/
theorem evaluate_negative_twice :
    let text := "-\n-7 "
    ∃ ts t c, tokenize text = .ok ts ∧ read (.ofTokens text ts) = .ok (t, c) ∧ (∀ u ∈ c.ahead, u.isIgnorable) ∧
      text.toList.head? = some '-' ∧ Arith.valueOf text.toList = .ok (.int 7) ∧
      ∀ r, (on (evaluate t) r).1 = .ok (.str "--7") := by
  intro text
  let ts : List Token :=
    [⟨.operator, "-", 0⟩, ⟨.newline, "\n", 1⟩, ⟨.operator, "-", 2⟩, ⟨.number, "7", 3⟩, ⟨.whitespace, " ", 4⟩]
  have hts : tokenize text = .ok ts := by cbv
  have hread : read (.ofTokens text ts) = .ok (.number "--7", ⟨ts.reverse, [], 5⟩) := by cbv
  have hvalue : Arith.valueOf text.toList = .ok (.int 7) := by cbv
  have hminus : text.toList.head? = some '-' := by cbv
  have hbehind : Text.trimChars text.toList.tail = ['-', '7'] := by cbv
  refine ⟨ts, _, _, hts, hread, by simp, hminus, hvalue, fun r => ?_⟩
  obtain ⟨hnone, -⟩ | ⟨sign, digits, hsplit, hsign, -, hall, h⟩ := evaluate_negative hts hread (by simp) hminus hvalue r
  · rw [hbehind] at hnone
    cases hnone
  · rw [hbehind] at hsplit h
    simp only [List.mem_cons, List.not_mem_nil, or_false] at hsign
    rcases hsign with rfl | rfl | rfl
    · rw [← (show _ = digits from hsplit)] at hall
      cases hall
    · cases hsplit
    · exact h

end JsonTerm
end RequestLang

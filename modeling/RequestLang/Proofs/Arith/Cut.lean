import RequestLang.Proofs.Arith.Comment
import RequestLang.Proofs.Arith.Exact
import RequestLang.Proofs.Token.Stops

/-! Where arithmetic can be cut. The symbols of a text are those of its parts, unless a number or the sign of a power
goes over the cut. -/
namespace RequestLang.Arith
open Lexer

/-- The symbols of a whole text. -/
def symbolsOf (cs : List Char) : Except Fault (List Symbol) := symbols (cs.length + 1) cs

/-- What is taken off the front of a text at once, the symbols that it makes, and what is left. -/
inductive Takes : List Char → List Symbol → List Char → Prop
  | blank {c : Char} (hc : isBlank c) (left : List Char) : Takes [c] [] left
  | op (o : Op) {left : List Char} (h : o = .mul → left.head? ≠ some '*') : Takes o.mark.toList [.op o] left
  | opening (left : List Char) : Takes ['('] [.opening] left
  | closing (left : List Char) : Takes [')'] [.closing] left
  | number {c : Char} {ds left : List Char} {v : Number} (hc : isNumberChar c)
      (hlength : numberLength (c :: ds ++ left) = (c :: ds).length) (hv : number? (c :: ds) = some v) :
      Takes (c :: ds) [.number v] left

/-- The text does not begin with anything that can be taken off. -/
inductive Refused : List Char → Fault → Prop
  | character {c : Char} (hmark : c ∉ ['(', ')', '+', '-', '*', '/', '%']) (hblank : isBlank c = false)
      (hnumber : isNumberChar c = false) (cs : List Char) : Refused (c :: cs) (.unexpectedCharacter c)
  | number {c : Char} {cs : List Char} (hc : isNumberChar c)
      (hv : number? ((c :: cs).take (numberLength (c :: cs))) = none) :
      Refused (c :: cs) (.invalidNumber (String.ofList ((c :: cs).take (numberLength (c :: cs)))))

section
variable {n : Nat} {c : Char} {cs front left rest : List Char} {new : List Symbol} {f : Fault}

/-- What a number ends with, and what may stand behind it. -/
inductive Exponent : List Char → List Char → Prop
  | none {rest : List Char} (hrest : EndsNumber rest) : Exponent [] rest
  | signed {e s : Char} {digits rest : List Char} (he : e = 'e' ∨ e = 'E') (hs : s = '+' ∨ s = '-')
      (hdigits : ∀ c ∈ digits, c.isDigit) (hrest : Stops Char.isDigit rest) :
      Exponent (e :: s :: digits) rest
  | unsigned {e : Char} {digits rest : List Char} (he : e = 'e' ∨ e = 'E')
      (hsign : ∀ c ∈ (digits ++ rest).head?, c ≠ '+' ∧ c ≠ '-')
      (hdigits : ∀ c ∈ digits, c.isDigit) (hrest : Stops Char.isDigit rest) : Exponent (e :: digits) rest

theorem exists_exponent (cs : List Char) (hcs : Stops isNumberChar cs) :
    ∃ exponent rest, cs = exponent ++ rest ∧ Exponent exponent rest := by
  rcases cs with _ | ⟨e, ds⟩
  · exact ⟨[], [], rfl, .none nofun⟩
  by_cases he : e = 'e' ∨ e = 'E'
  · by_cases hs : ∃ s rest, ds = s :: rest ∧ (s = '+' ∨ s = '-')
    · obtain ⟨s, ds, rfl, hs⟩ := hs
      obtain ⟨digits, rest, rfl, hdigits, hrest⟩ := exists_run Char.isDigit ds
      exact ⟨e :: s :: digits, rest, rfl, .signed he hs hdigits hrest⟩
    · obtain ⟨digits, rest, rfl, hdigits, hrest⟩ := exists_run Char.isDigit ds
      refine ⟨e :: digits, rest, rfl, .unsigned he (fun c hc => ?_) hdigits hrest⟩
      rw [← not_or]
      exact fun h => hs ⟨c, (digits ++ rest).tail, List.eq_cons_of_mem_head? hc, h⟩
  · refine ⟨[], e :: ds, rfl, .none ?_⟩
    rintro c ⟨⟩
    exact ⟨by simp [hcs e rfl], fun h => he (.inl h), fun h => he (.inr h)⟩

/-- A text begins with digits and points and an exponent, each of them perhaps empty. -/
theorem exists_numeral (cs : List Char) : ∃ body exponent rest, cs = body ++ (exponent ++ rest) ∧
    (∀ c ∈ body, isNumberChar c) ∧ Exponent exponent rest := by
  obtain ⟨body, tail, rfl, hbody, htail⟩ := exists_run isNumberChar cs
  obtain ⟨exponent, rest, rfl, hexponent⟩ := exists_exponent tail htail
  exact ⟨body, exponent, rest, rfl, hbody, hexponent⟩

theorem isNumberChar_not_mark (hc : isNumberChar c) :
    c ∉ ['(', ')', '+', '-', '*', '/', '%'] ∧ isBlank c = false ∧ c ≠ 'e' ∧ c ≠ 'E' := by
  refine ⟨fun h => ?_, ?_, ?_, ?_⟩
  · fin_cases h <;> exact absurd hc (by decide)
  · rw [← Bool.not_eq_true]
    intro h
    rcases isBlank_iff.mp h with rfl | rfl | rfl | rfl <;> exact absurd hc (by decide)
  · rintro rfl
    exact absurd hc (by decide)
  · rintro rfl
    exact absurd hc (by decide)

/-- What begins with a digit or a point has some of them before an exponent. -/
theorem Exponent.body_ne_nil {body exponent rest : List Char} (h : Exponent exponent rest) (hc : isNumberChar c)
    (hsplit : c :: cs = body ++ (exponent ++ rest)) : body ≠ [] := by
  rintro rfl
  obtain ⟨-, -, hletter⟩ := isNumberChar_not_mark hc
  rw [List.nil_append] at hsplit
  cases h with
  | none hrest =>
    obtain rfl : c :: cs = rest := hsplit
    exact (hrest c rfl).1 hc
  | signed he =>
    obtain ⟨rfl, -⟩ := List.cons.inj hsplit
    exact he.elim hletter.1 hletter.2
  | unsigned he =>
    obtain ⟨rfl, -⟩ := List.cons.inj hsplit
    exact he.elim hletter.1 hletter.2

theorem numberLength_exponent {body exponent rest : List Char} (hbody : ∀ c ∈ body, isNumberChar c)
    (h : Exponent exponent rest) : numberLength (body ++ (exponent ++ rest)) = body.length + exponent.length := by
  have hstop : Stops isNumberChar (exponent ++ rest) := by
    cases h with
    | none hrest => exact fun c hc => by simpa using (hrest c hc).1
    | signed he => rcases he with rfl | rfl <;> simp [isNumberChar]
    | unsigned he => rcases he with rfl | rfl <;> simp [isNumberChar]
  rw [numberLength, takeWhile_append_of_stops hbody hstop, List.drop_left]
  cases h with
  | none hrest =>
    cases rest with
    | nil => rfl
    | cons c rest =>
      obtain ⟨-, he, hE⟩ := hrest c rfl
      simp [he, hE]
  | signed he hs hdigits hrest =>
    simp [he, hs, takeWhile_append_of_stops hdigits hrest]
    omega
  | @unsigned e digits rest he hsign hdigits hrest =>
    have hdigits := takeWhile_append_of_stops hdigits hrest
    rw [List.cons_append]
    generalize digits ++ rest = tail at hsign hdigits
    cases tail with
    | nil => simp_all
    | cons s tail =>
      have hs := hsign s rfl
      simp_all
      omega

/-- A text that is a number by its length is digits and points with an exponent. -/
theorem numeral_of_numberLength {ds left : List Char} (h : numberLength (ds ++ left) = ds.length) :
    ∃ body exponent, ds = body ++ exponent ∧ (∀ c ∈ body, isNumberChar c) ∧ Exponent exponent left := by
  obtain ⟨body, exponent, rest, hsplit, hbody, hexponent⟩ := exists_numeral (ds ++ left)
  rw [hsplit, numberLength_exponent hbody hexponent, ← List.length_append] at h
  rw [← List.append_assoc] at hsplit
  obtain ⟨hds, rfl⟩ := List.append_inj hsplit h.symm
  exact ⟨body, exponent, hds, hbody, hexponent⟩

theorem mem_numeral {ds left : List Char} (h : numberLength (ds ++ left) = ds.length) :
    ∀ c ∈ ds, isNumberChar c ∨ c ∈ ['e', 'E', '+', '-'] := by
  obtain ⟨body, exponent, hds, hbody, hexponent⟩ := numeral_of_numberLength h
  subst hds
  have hdigit {c : Char} (hc : c.isDigit) : isNumberChar c := by simp [isNumberChar, hc]
  have hexp : ∀ c ∈ exponent, isNumberChar c ∨ c ∈ ['e', 'E', '+', '-'] := by
    cases hexponent with
    | none => simp
    | signed he hs hdigits =>
      refine List.forall_mem_cons.mpr ⟨.inr (by rcases he with rfl | rfl <;> decide), ?_⟩
      refine List.forall_mem_cons.mpr ⟨.inr (by rcases hs with rfl | rfl <;> decide), ?_⟩
      exact fun c hc => .inl (hdigit (hdigits c hc))
    | unsigned he _ hdigits =>
      refine List.forall_mem_cons.mpr ⟨.inr (by rcases he with rfl | rfl <;> decide), ?_⟩
      exact fun c hc => .inl (hdigit (hdigits c hc))
  intro c hc
  rcases List.mem_append.mp hc with hc | hc
  · exact .inl (hbody c hc)
  · exact hexp c hc

theorem numberLength_le (cs : List Char) : numberLength cs ≤ cs.length := by
  obtain ⟨body, exponent, rest, rfl, hbody, hexponent⟩ := exists_numeral cs
  rw [numberLength_exponent hbody hexponent, List.length_append, List.length_append]
  omega

/-- A number at the end of the text lacks the digits of its exponent. -/
def Unfinished (cs : List Char) : Prop :=
  ∃ front c e, cs = front ++ [c, e] ∧ isNumberChar c ∧ (e = 'e' ∨ e = 'E')

theorem Unfinished.append_left (h : Unfinished cs) (front : List Char) : Unfinished (front ++ cs) := by
  obtain ⟨more, c, e, rfl, hc, he⟩ := h
  exact ⟨front ++ more, c, e, (List.append_assoc ..).symm, hc, he⟩

/-- Two texts that are read one after the other when they stand side by side. -/
structure Apart (cs rest : List Char) : Prop where
  number : EndsNumber rest
  exponent : ∀ s ∈ rest.head?, s = '+' ∨ s = '-' → ¬Unfinished cs
  power : rest.head? = some '*' → cs.getLast? ≠ some '*'

namespace Apart
variable {cs rest : List Char}

theorem of_append {front : List Char} (h : Apart (front ++ cs) rest) (hcs : cs ≠ []) : Apart cs rest where
  number := h.number
  exponent s hs hmark hunfinished := h.exponent s hs hmark (hunfinished.append_left front)
  power hstar := by
    rw [← List.getLast?_append_of_ne_nil front hcs]
    exact h.power hstar

theorem stops_digit (h : Apart cs rest) : Stops Char.isDigit rest := by
  intro c hc
  have hnumber := (h.number c hc).1
  rw [isNumberChar, Bool.or_eq_true, not_or] at hnumber
  simpa using hnumber.1

end Apart

theorem Exponent.append {body exponent rest more : List Char} (h : Exponent exponent rest) (hne : body ≠ [])
    (hbody : ∀ c ∈ body, isNumberChar c) (hmore : Apart (body ++ (exponent ++ rest)) more) :
    Exponent exponent (rest ++ more) := by
  by_cases hrest : rest = []
  · subst hrest
    cases h with
    | none => exact .none hmore.number
    | signed he hs hdigits => exact .signed he hs hdigits hmore.stops_digit
    | @unsigned e digits _ he hsign hdigits =>
      refine .unsigned he ?_ hdigits hmore.stops_digit
      cases digits with
      | cons d digits => exact hsign
      | nil =>
        intro s hs
        rw [← not_or]
        intro hmark
        obtain ⟨front, d, rfl⟩ := List.eq_nil_or_concat body |>.resolve_left hne
        refine hmore.exponent s hs hmark ⟨front, d, e, ?_, hbody d (by simp), he⟩
        simp
  · obtain ⟨c, rest, rfl⟩ := List.exists_cons_of_ne_nil hrest
    cases h with
    | none hrest => exact .none hrest
    | signed he hs hdigits hrest => exact .signed he hs hdigits hrest
    | @unsigned e digits _ he hsign hdigits hrest =>
      refine .unsigned he ?_ hdigits hrest
      cases digits <;> exact hsign

theorem numberLength_append {c : Char} {cs rest : List Char} (hc : isNumberChar c) (h : Apart (c :: cs) rest) :
    numberLength (c :: cs ++ rest) = numberLength (c :: cs) := by
  obtain ⟨body, exponent, left, hcs, hbody, hexponent⟩ := exists_numeral (c :: cs)
  have hne := hexponent.body_ne_nil hc hcs
  rw [hcs] at h ⊢
  rw [List.append_assoc, List.append_assoc, numberLength_exponent hbody hexponent,
    numberLength_exponent hbody (hexponent.append hne hbody h)]

/-- What is no mark is a blank, begins a number, or is refused. -/
theorem symbols_plain (hmark : c ∉ ['(', ')', '+', '-', '*', '/', '%']) :
    symbols (n + 1) (c :: cs) =
      if isBlank c then symbols n cs
      else if isNumberChar c then
        let k := numberLength (c :: cs)
        let text := (c :: cs).take k
        match number? text with
        | some v => (symbols n ((c :: cs).drop k)).map (.number v :: ·)
        | none => .error (.invalidNumber (String.ofList text))
      else .error (.unexpectedCharacter c) := by
  simp only [List.mem_cons, List.not_mem_nil, or_false, not_or] at hmark
  rw [symbols]
  all_goals first
    | rfl
    | (intros; simp_all)

namespace Takes

theorem ne_nil (h : Takes front new left) : front ≠ [] := by
  cases h with
  | op o => cases o <;> decide
  | _ => exact List.cons_ne_nil _ _

theorem symbols_eq (h : Takes front new left) : symbols (n + 1) (front ++ left) = (symbols n left).map (new ++ ·) := by
  cases h with
  | blank hc =>
    rw [List.singleton_append, symbols_blank hc]
    cases symbols n left <;> rfl
  | op o h =>
    by_cases ho : o = .mul
    · exact symbols_op o (h ho)
    · cases o with
      | mul => exact absurd rfl ho
      | _ => rfl
  | opening => rfl
  | closing => rfl
  | @number c ds _ v hc hlength hv =>
    obtain ⟨hmark, hblank, -⟩ := isNumberChar_not_mark hc
    have htake : (c :: ds ++ left).take (c :: ds).length = c :: ds := List.take_left
    have hdrop : (c :: ds ++ left).drop (c :: ds).length = left := List.drop_left
    rw [List.cons_append] at hlength htake hdrop ⊢
    rw [symbols_plain hmark, if_neg (by simp [hblank]), if_pos hc]
    simp only [hlength, htake, hdrop, hv]
    rfl

end Takes

theorem Refused.symbols_eq (h : Refused cs f) : symbols (n + 1) cs = .error f := by
  cases h with
  | character hmark hblank hnumber cs => simp [symbols_plain hmark, hblank, hnumber]
  | number hc hv =>
    obtain ⟨hmark, hblank, -⟩ := isNumberChar_not_mark hc
    simp [symbols_plain hmark, hblank, hc, hv]

theorem takes_or_refused (c : Char) (cs : List Char) :
    (∃ front new left, c :: cs = front ++ left ∧ Takes front new left) ∨ ∃ f, Refused (c :: cs) f := by
  by_cases hmark : c ∈ ['(', ')', '+', '-', '*', '/', '%']
  · have hop (o : Op) (hmul : o ≠ .mul) : Takes o.mark.toList [.op o] cs := .op o fun h => absurd h hmul
    simp only [List.mem_cons, List.not_mem_nil, or_false] at hmark
    rcases hmark with rfl | rfl | rfl | rfl | rfl | rfl | rfl
    · exact .inl ⟨_, _, cs, rfl, .opening cs⟩
    · exact .inl ⟨_, _, cs, rfl, .closing cs⟩
    · exact .inl ⟨_, _, cs, rfl, hop .add (by decide)⟩
    · exact .inl ⟨_, _, cs, rfl, hop .sub (by decide)⟩
    · by_cases hpow : ∃ left, cs = '*' :: left
      · obtain ⟨left, rfl⟩ := hpow
        exact .inl ⟨_, _, left, rfl, .op .pow (by simp)⟩
      · refine .inl ⟨_, _, cs, rfl, .op .mul fun _ h => hpow ?_⟩
        exact ⟨cs.tail, (List.eq_cons_of_mem_head? h)⟩
    · exact .inl ⟨_, _, cs, rfl, hop .div (by decide)⟩
    · exact .inl ⟨_, _, cs, rfl, hop .mod (by decide)⟩
  cases hblank : isBlank c with
  | true => exact .inl ⟨[c], [], cs, rfl, .blank hblank cs⟩
  | false =>
    cases hnumber : isNumberChar c with
    | false => exact .inr ⟨_, .character hmark hblank hnumber cs⟩
    | true =>
      cases hv : number? ((c :: cs).take (numberLength (c :: cs))) with
      | none => exact .inr ⟨_, .number hnumber hv⟩
      | some v =>
        obtain ⟨k, hk⟩ := Nat.exists_eq_succ_of_ne_zero (numberLength_pos hnumber cs).ne'
        have hle : numberLength (c :: cs) ≤ (c :: cs).length := numberLength_le _
        have hsplit : c :: cs = (c :: cs.take k) ++ cs.drop k := by simp
        rw [hk, List.take_succ_cons] at hv
        refine .inl ⟨_, _, _, hsplit, .number hnumber ?_ hv⟩
        rw [← hsplit, hk, List.length_cons, List.length_take]
        rw [hk, List.length_cons] at hle
        omega

theorem Takes.append (h : Takes front new left) (hrest : Apart (front ++ left) rest) : Takes front new (left ++ rest) := by
  cases h with
  | blank hc => exact .blank hc _
  | @op o left h =>
    refine .op o fun ho => ?_
    subst ho
    cases left with
    | cons c left => exact h rfl
    | nil => exact fun hstar => hrest.power hstar rfl
  | opening => exact .opening _
  | closing => exact .closing _
  | number hc hlength hv =>
    refine .number hc ?_ hv
    rw [← List.append_assoc]
    exact (numberLength_append hc hrest).trans hlength

theorem Refused.append (h : Refused cs f) (hrest : Apart cs rest) : Refused (cs ++ rest) f := by
  cases h with
  | character hmark hblank hnumber => exact .character hmark hblank hnumber _
  | @number c cs hc hv =>
    have hlength := numberLength_append hc hrest
    have htake : (c :: cs ++ rest).take (numberLength (c :: cs)) = (c :: cs).take (numberLength (c :: cs)) :=
      List.take_append_of_le_length (numberLength_le _)
    have hwhole := @Refused.number c (cs ++ rest) hc
    rw [← List.cons_append, hlength, htake] at hwhole
    exact hwhole hv

/-- Steps left over do not matter. -/
theorem symbols_congr {m : Nat} (hn : cs.length < n) (hm : cs.length < m) : symbols n cs = symbols m cs := by
  induction n generalizing cs m with
  | zero => omega
  | succ n ih =>
    obtain ⟨m, rfl⟩ := Nat.exists_eq_succ_of_ne_zero (Nat.ne_zero_of_lt hm)
    cases cs with
    | nil => rfl
    | cons c cs =>
      obtain ⟨front, new, left, hcs, htakes⟩ | ⟨f, hrefused⟩ := takes_or_refused c cs
      · have hpos := List.length_pos_of_ne_nil htakes.ne_nil
        rw [hcs, List.length_append] at hn hm
        rw [hcs, htakes.symbols_eq, htakes.symbols_eq, ih (m := m) (by omega) (by omega)]
      · rw [hrefused.symbols_eq, hrefused.symbols_eq]

theorem Takes.symbolsOf_eq (h : Takes front new left) : symbolsOf (front ++ left) = (symbolsOf left).map (new ++ ·) := by
  have hpos := List.length_pos_of_ne_nil h.ne_nil
  rw [symbolsOf, h.symbols_eq, symbolsOf]
  exact congrArg _ (symbols_congr (by rw [List.length_append]; omega) (Nat.lt_succ_self _))

/-- A text taken apart, with its symbols. -/
inductive TakenApart : List Char → List Symbol → Prop
  | nil : TakenApart [] []
  | cons {front left : List Char} {new ss : List Symbol} (h : Takes front new left) (hleft : TakenApart left ss) :
      TakenApart (front ++ left) (new ++ ss)

theorem takenApart_of_symbolsOf {ss : List Symbol} (h : symbolsOf cs = .ok ss) : TakenApart cs ss := by
  induction hn : cs.length using Nat.strongRecOn generalizing cs ss with
  | ind n ih =>
    cases cs with
    | nil =>
      cases h
      exact .nil
    | cons c cs =>
      obtain ⟨front, new, left, hcs, htakes⟩ | ⟨f, hrefused⟩ := takes_or_refused c cs
      · rw [hcs] at h hn ⊢
        have hpos := List.length_pos_of_ne_nil htakes.ne_nil
        rw [List.length_append] at hn
        rw [htakes.symbolsOf_eq] at h
        obtain ⟨ss, hleft, rfl⟩ := map_eq_ok.mp h
        exact .cons htakes (ih left.length (by omega) hleft rfl)
      · rw [symbolsOf, hrefused.symbols_eq] at h
        cases h

/-- The characters that symbols are made of, and the blanks between them. -/
def isLegible (c : Char) : Bool :=
  isBlank c || isNumberChar c || ['e', 'E', '(', ')', '+', '-', '*', '/', '%'].contains c

theorem Takes.legible (h : Takes front new left) : ∀ c ∈ front, isLegible c := by
  cases h with
  | blank hc => simp [isLegible, hc]
  | op o => cases o <;> simp [Op.mark, isLegible]
  | opening => simp [isLegible]
  | closing => simp [isLegible]
  | number _ hlength =>
    intro c hc
    rcases mem_numeral hlength c hc with hc | hc
    · simp [isLegible, hc]
    · fin_cases hc <;> decide

theorem TakenApart.legible {ss : List Symbol} (h : TakenApart cs ss) : ∀ c ∈ cs, isLegible c := by
  induction h with
  | nil => nofun
  | cons htakes _ ih => exact List.forall_mem_append.mpr ⟨htakes.legible, ih⟩

/-- Texts that stand side by side without touching each other are read one after the other. -/
theorem symbolsOf_append (h : Apart cs rest) :
    symbolsOf (cs ++ rest) = (do
      let ss ← symbolsOf cs
      (symbolsOf rest).map (ss ++ ·)) := by
  induction hn : cs.length using Nat.strongRecOn generalizing cs with
  | ind n ih =>
    cases cs with
    | nil =>
      show symbolsOf rest = (symbolsOf rest).map id
      cases symbolsOf rest <;> rfl
    | cons c cs =>
      obtain ⟨front, new, left, hcs, htakes⟩ | ⟨f, hrefused⟩ := takes_or_refused c cs
      · rw [hcs] at h hn ⊢
        have hpos := List.length_pos_of_ne_nil htakes.ne_nil
        rw [List.length_append] at hn
        have hleft : symbolsOf (left ++ rest) = (do
            let ss ← symbolsOf left
            (symbolsOf rest).map (ss ++ ·)) := by
          by_cases hempty : left = []
          · subst hempty
            show symbolsOf rest = (symbolsOf rest).map id
            cases symbolsOf rest <;> rfl
          · exact ih left.length (by omega) (h.of_append hempty) rfl
        rw [List.append_assoc, (htakes.append h).symbolsOf_eq, htakes.symbolsOf_eq, hleft]
        cases symbolsOf left with
        | error f => rfl
        | ok ss =>
          cases symbolsOf rest with
          | error f => rfl
          | ok ts => simp [Except.map]
      · have hwhole := hrefused.append h
        rw [symbolsOf, symbolsOf, hwhole.symbols_eq, hrefused.symbols_eq]
        rfl

/-- A blank goes with nothing. -/
theorem apart_blank (hc : isBlank c) (cs rest : List Char) : Apart cs (c :: rest) := by
  rcases isBlank_iff.mp hc with rfl | rfl | rfl | rfl <;> constructor <;> simp [EndsNumber, isNumberChar]

theorem symbolsOf_blanks {gap : List Char} (hgap : ∀ c ∈ gap, isBlank c) (rest : List Char) :
    symbolsOf (gap ++ rest) = symbolsOf rest := by
  induction gap with
  | nil => rfl
  | cons c gap ih =>
    rw [List.forall_mem_cons] at hgap
    rw [← ih hgap.2]
    exact symbols_blank hgap.1

/-- What blanks stand between is read by itself. -/
theorem symbolsOf_append_blanks {gap : List Char} (hne : gap ≠ []) (hgap : ∀ c ∈ gap, isBlank c) (cs rest : List Char) :
    symbolsOf (cs ++ (gap ++ rest)) = (do
      let ss ← symbolsOf cs
      (symbolsOf rest).map (ss ++ ·)) := by
  have hrest := symbolsOf_blanks hgap rest
  obtain ⟨c, gap, rfl⟩ := List.exists_cons_of_ne_nil hne
  have hapart := apart_blank (hgap c List.mem_cons_self) cs (gap ++ rest)
  rw [← List.cons_append] at hapart
  rw [symbolsOf_append hapart, hrest]

/-- A text that symbols cannot be made of has no remainder that overflows. -/
theorem ne_remainderOverflow_of_symbolsOf (h : symbolsOf cs = .error f) : f ≠ .remainderOverflow := by
  induction hn : cs.length using Nat.strongRecOn generalizing cs with
  | ind n ih =>
    cases cs with
    | nil => cases h
    | cons c cs =>
      obtain ⟨front, new, left, hcs, htakes⟩ | ⟨g, hrefused⟩ := takes_or_refused c cs
      · have hpos := List.length_pos_of_ne_nil htakes.ne_nil
        rw [hcs, List.length_append] at hn
        rw [hcs, htakes.symbolsOf_eq] at h
        cases hleft : symbolsOf left with
        | ok ss =>
          rw [hleft] at h
          cases h
        | error g =>
          rw [hleft] at h
          cases h
          exact ih left.length (by omega) hleft rfl
      · rw [symbolsOf, hrefused.symbols_eq] at h
        cases h
        cases hrefused <;> nofun

/-- A value depends on the symbols alone. -/
theorem valueOf_congr (h : symbolsOf cs = symbolsOf rest) : valueOf cs = valueOf rest := by
  show (symbolsOf cs >>= _) = symbolsOf rest >>= _
  rw [h]

theorem evaluate_of_symbolsOf_error (h : symbolsOf cs = .error f) : evaluate (String.ofList cs) = .error f := by
  have hvalue : valueOf cs = .error f := by
    show (symbolsOf cs >>= _) = _
    rw [h]
    rfl
  rw [evaluate, String.toList_ofList, hvalue]
  rfl

end
end RequestLang.Arith

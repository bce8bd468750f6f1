import RequestLang.Json.Printer
import RequestLang.Proofs.Document.Legible
import RequestLang.Proofs.Document.Read.Arithmetic

/-! The numbers of JSON values, as they are written, read back as single numbers. -/
namespace RequestLang
open Lexer Lexeme

/-- Decimal digits, of which there is at least one. -/
structure Digits where
  chars : List Char
  nonempty : chars ≠ []
  digits : ∀ c ∈ chars, c.isDigit

namespace Digits

def ofNat (n : Nat) : Digits where
  chars := Nat.toDigits 10 n
  nonempty := Nat.toDigits_ne_nil
  digits _ hc := Nat.isDigit_of_mem_toDigits (by decide) (by decide) hc

/-- Digits with zeros behind them. -/
def scaled (ds : Digits) (n : Nat) : Digits where
  chars := ds.chars ++ List.replicate n '0'
  nonempty := by simp [ds.nonempty]
  digits c hc := by
    rcases List.mem_append.mp hc with hc | hc
    · exact ds.digits c hc
    · rw [List.eq_of_mem_replicate hc]
      rfl

/-- Digits with zeros before them. -/
def padded (n : Nat) (ds : Digits) : Digits where
  chars := List.replicate n '0' ++ ds.chars
  nonempty := by simp [ds.nonempty]
  digits c hc := by
    rcases List.mem_append.mp hc with hc | hc
    · rw [List.eq_of_mem_replicate hc]
      rfl
    · exact ds.digits c hc

/-- The front of digits. -/
def take (ds : Digits) (n : Nat) (h : 0 < n) : Digits where
  chars := ds.chars.take n
  nonempty := by simp [ds.nonempty, Nat.ne_of_gt h]
  digits c hc := ds.digits c (List.mem_of_mem_take hc)

/-- What is left of digits. -/
def drop (ds : Digits) (n : Nat) (h : n < ds.chars.length) : Digits where
  chars := ds.chars.drop n
  nonempty := by simp [h]
  digits c hc := ds.digits c (List.mem_of_mem_drop hc)

theorem run_append (ds : Digits) {rest : List Char} (hr : Stops Char.isDigit rest) :
    run Char.isDigit (ds.chars ++ rest) = ds.chars.length :=
  Lexer.run_append ds.digits hr

theorem takeWhile_append (ds : Digits) {rest : List Char} (hr : Stops Char.isDigit rest) :
    (ds.chars ++ rest).takeWhile Char.isDigit = ds.chars :=
  takeWhile_append_of_stops ds.digits hr

theorem dropWhile_append (ds : Digits) {rest : List Char} (hr : Stops Char.isDigit rest) :
    (ds.chars ++ rest).dropWhile Char.isDigit = rest :=
  dropWhile_append_of_stops ds.digits hr

theorem run_chars (ds : Digits) : run Char.isDigit ds.chars = ds.chars.length := run_of_all ds.digits

end Digits

/-- The exponent of a power of ten, with its letter and perhaps a sign. -/
structure Exponent where
  letter : Char
  sign : List Char
  digits : Digits
  isLetter : letter = 'e' ∨ letter = 'E'
  isSign : sign ∈ [[], ['+'], ['-']]

namespace Exponent

/-- An exponent as it is written: the letter is small and the sign stands there. -/
def signed (negative : Bool) (ds : Digits) : Exponent where
  letter := 'e'
  sign := [if negative then '-' else '+']
  digits := ds
  isLetter := .inl rfl
  isSign := by cases negative <;> simp

def chars (x : Exponent) : List Char := x.letter :: (x.sign ++ x.digits.chars)

/-- The sign stands by itself: the digits begin with none. -/
theorem head_digits (x : Exponent) : ∃ c cs, x.digits.chars = c :: cs ∧ c ≠ '+' ∧ c ≠ '-' := by
  obtain ⟨c, cs, hc⟩ := List.exists_cons_of_ne_nil x.digits.nonempty
  have hdigit : c.isDigit := x.digits.digits c (hc ▸ List.mem_cons_self)
  refine ⟨c, cs, hc, ?_, ?_⟩ <;> rintro rfl <;> simp at hdigit

theorem exponentLength_chars (x : Exponent) : exponentLength x.chars = x.chars.length := by
  obtain ⟨c, cs, hc, hplus, hminus⟩ := x.head_digits
  have hrun := x.digits.run_chars
  have hsign := x.isSign
  simp only [List.mem_cons, List.not_mem_nil, or_false] at hsign
  rw [hc] at hrun
  rcases hsign with hsign | hsign | hsign <;> simp [chars, exponentLength, x.isLetter, hsign, hc, hrun, hplus, hminus]

theorem isSome_exponent? (x : Exponent) : (Numeral.exponent? x.chars).isSome := by
  obtain ⟨c, cs, hc, hplus, hminus⟩ := x.head_digits
  have hdigits : (c :: cs).all Char.isDigit := List.all_eq_true.mpr (hc ▸ x.digits.digits)
  have hsign := x.isSign
  simp only [List.mem_cons, List.not_mem_nil, or_false] at hsign
  rcases hsign with hsign | hsign | hsign <;>
    simp_all [chars, Numeral.exponent?, x.isLetter]

end Exponent

/-- A decimal number without a sign. -/
structure Decimal where
  whole : Digits
  fraction : Option Digits := none
  power : Option Exponent := none

namespace Decimal

def fractionChars : Option Digits → List Char
  | some ds => '.' :: ds.chars
  | none => []

def powerChars : Option Exponent → List Char
  | some x => x.chars
  | none => []

def chars (d : Decimal) : List Char := d.whole.chars ++ (fractionChars d.fraction ++ powerChars d.power)

theorem stops_powerChars (power : Option Exponent) : Stops Char.isDigit (powerChars power) := by
  cases power with
  | none => exact stops_nil _
  | some x => rcases x.isLetter with h | h <;> simp [powerChars, Exponent.chars, h]

theorem stops_tail (d : Decimal) : Stops Char.isDigit (fractionChars d.fraction ++ powerChars d.power) := by
  cases hf : d.fraction with
  | none => exact stops_powerChars d.power
  | some ds => simp [fractionChars]

theorem fractionLength_tail (d : Decimal) :
    fractionLength (fractionChars d.fraction ++ powerChars d.power) = (fractionChars d.fraction).length := by
  cases hf : d.fraction with
  | none =>
    cases d.power with
    | none => rfl
    | some x => rcases x.isLetter with h | h <;> simp [fractionChars, powerChars, Exponent.chars, fractionLength, h]
  | some ds =>
    simp [fractionChars, fractionLength, ds.run_append (stops_powerChars d.power), ds.nonempty]

theorem exponentLength_powerChars (power : Option Exponent) :
    exponentLength (powerChars power) = (powerChars power).length := by
  cases power with
  | none => rfl
  | some x => exact x.exponentLength_chars

theorem numberLength_chars (d : Decimal) : numberLength d.chars = d.chars.length := by
  rw [numberLength_eq, chars, d.whole.run_append d.stops_tail, List.drop_left, fractionLength_tail,
    List.drop_left, exponentLength_powerChars]
  simp only [List.length_append]
  omega

theorem head_chars (d : Decimal) : ∃ c cs, d.chars = c :: cs ∧ c.isDigit := by
  obtain ⟨c, cs, hc⟩ := List.exists_cons_of_ne_nil d.whole.nonempty
  exact ⟨c, cs ++ (fractionChars d.fraction ++ powerChars d.power), by rw [chars, hc, List.cons_append],
    d.whole.digits c (by simp [hc])⟩

theorem isNumberChar_of_mem {d : Decimal} {c : Char} (hc : c ∈ d.chars) : isNumberChar c := by
  refine @mem_take_number d.chars c ?_
  rwa [numberLength_chars, List.take_length]

theorem not_mem_chars (d : Decimal) {c : Char} (hc : isNumberChar c = false) : c ∉ d.chars := by
  intro hmem
  rw [isNumberChar_of_mem hmem] at hc
  cases hc

/-- Alone or before what does not go on with it, the lexer takes a decimal number off whole. -/
theorem cuts {d : Decimal} {text : String} (h : text.toList = d.chars) {rest : List Char}
    (hr : Stops extendsNumber rest) : Cuts ⟨.number, text⟩ rest := by
  obtain ⟨c, cs, hc, hdigit⟩ := d.head_chars
  have hn := d.numberLength_chars
  rw [hc] at h hn
  exact cuts_number h hdigit hn hr

theorem isOperand {d : Decimal} {text : String} (h : text.toList = d.chars) : IsOperand .number text where
  operand := .inl rfl
  cuts := cuts h (stops_nil _)
  clean := h ▸ d.not_mem_chars (by decide)

theorem isSome_exponent? (power : Option Exponent) : (Numeral.exponent? (powerChars power)).isSome := by
  cases power with
  | none => rfl
  | some x => exact x.isSome_exponent?

/-- A digit begins none of the names among the numerals. -/
theorem lower_ne {c d : Char} (hc : c.isDigit) (hd : d.isAlpha) (cs ds : List Char) :
    Numeral.lower (c :: cs) ≠ d :: ds := by
  intro h
  have hlower : c.toLower = d := (List.cons.inj h).1
  have halpha : c.isAlpha := by rw [← Char.isAlpha_toLower_eq_isAlpha, hlower, hd]
  have hstart : Text.isNameStart c := by simp [Text.isNameStart, halpha]
  simp [Text.isDigit_of_isNameStart hstart] at hc

theorem isSome_unsigned? (d : Decimal) (negative : Bool) : (Numeral.unsigned? negative d.chars).isSome := by
  have hname {letter : Char} (hl : letter.isAlpha) (letters : List Char) :
      Numeral.lower d.chars ≠ letter :: letters := by
    obtain ⟨c, cs, hc, hdigit⟩ := d.head_chars
    rw [hc]
    exact lower_ne hdigit hl cs letters
  have hpower := isSome_exponent? d.power
  have hwhole := d.whole.takeWhile_append d.stops_tail
  have htail := d.whole.dropWhile_append d.stops_tail
  rw [← chars] at hwhole htail
  rw [Numeral.unsigned?, if_neg (not_or.mpr ⟨hname (by decide) _, hname (by decide) _⟩), if_neg (hname (by decide) _)]
  simp only [hwhole, htail]
  cases hf : d.fraction with
  | none =>
    cases hp : d.power with
    | none => simp_all [fractionChars, powerChars, d.whole.nonempty]
    | some x => rcases x.isLetter with h | h <;> simp_all [fractionChars, powerChars, Exponent.chars, d.whole.nonempty]
  | some ds =>
    simp [fractionChars, ds.takeWhile_append (stops_powerChars d.power),
      ds.dropWhile_append (stops_powerChars d.power), d.whole.nonempty, hpower]

theorem trimChars_chars (d : Decimal) : Text.trimChars d.chars = d.chars := by
  have hblank : ∀ c ∈ d.chars, Text.isBlank c = false := fun c hc => isBlank_of_isNumberChar (isNumberChar_of_mem hc)
  rw [Text.trimChars, Text.trimLeft_eq_self fun c hc => hblank c (List.mem_of_head? hc),
    Text.trimRight_eq_self fun c hc => hblank c (List.mem_of_getLast? hc)]

/-- A minus sign before a decimal number makes arithmetic of it. -/
theorem isRun {d : Decimal} {text : String} (h : text.toList = '-' :: d.chars) : JsonTerm.IsRun (pieces text) := by
  have hbody : (String.ofList d.chars).toList = d.chars := String.toList_ofList
  have hchars : Lexeme.chars [op "-", ⟨.number, String.ofList d.chars⟩] = text.toList := by
    simp [h]
  have hfalls : Falls [op "-", ⟨.number, String.ofList d.chars⟩] [] :=
    ⟨cuts_op (by decide) _, cuts hbody (stops_nil _), trivial⟩
  rw [pieces_of_falls hfalls hchars]
  refine ⟨hfalls, rfl, ?_, rfl, ?_⟩
  · simp [Lexeme.isIgnorable, Lexeme.token, Token.isIgnorable]
  · rw [hchars, h]
    simp [d.not_mem_chars (c := '\r') (by decide)]

/-- That arithmetic is a number again. -/
theorem ofArithmetic_eq {d : Decimal} {text : String} (h : text.toList = '-' :: d.chars) :
    JsonTerm.ofArithmetic text.toList = .number text := by
  have hread := d.isSome_unsigned? false
  obtain ⟨c, cs, hc, hdigit⟩ := d.head_chars
  have hsign : Numeral.read? d.chars = Numeral.unsigned? false d.chars := by
    have : c ≠ '-' ∧ c ≠ '+' := by
      constructor <;>
      · rintro rfl
        revert hdigit
        decide
    simp [hc, Numeral.read?, this]
  simp only [h, JsonTerm.ofArithmetic, trimChars_chars, hsign, hread, if_true]
  rw [← h, String.ofList_toList]

theorem legible {d : Decimal} {text : String} (h : text.toList = d.chars ∨ text.toList = '-' :: d.chars) :
    (JsonTerm.number text).Legible :=
  h.imp isOperand fun h => ⟨isRun h, ofArithmetic_eq h⟩

end Decimal

namespace Json.Number

/-- Only finite floats are JSON numbers. -/
def Finite : Number → Prop
  | .int _ => True
  | .float x => x.isNaN = false ∧ x.isInf = false

/-- The parts of a number that is written without an exponent. -/
theorem exists_positional (m : Nat) (e : Int) :
    ∃ d : Decimal, (if 0 ≤ e then Shortest.positional m e ++ ".0" else Shortest.positional m e).toList = d.chars := by
  by_cases he : 0 ≤ e
  · refine ⟨{ whole := (Digits.ofNat m).scaled e.toNat, fraction := some (.ofNat 0) }, ?_⟩
    simp [he, Shortest.positional, Decimal.chars, Decimal.fractionChars, Decimal.powerChars, Digits.scaled,
      Digits.ofNat]
  · let ds := Digits.ofNat m
    let places := (-e).toNat
    let all := ds.padded (places + 1 - ds.chars.length)
    have hplaces : 0 < places := by omega
    have hlength : all.chars.length = places + 1 - ds.chars.length + ds.chars.length := by
      simp [all, Digits.padded]
    refine ⟨{ whole := all.take (all.chars.length - places) (by omega)
              fraction := some (all.drop (all.chars.length - places) (by omega)) }, ?_⟩
    simp [he, Shortest.positional, Decimal.chars, Decimal.fractionChars, Decimal.powerChars, all, ds, places,
      Digits.take, Digits.drop, Digits.padded, Digits.ofNat]

/-- The parts of a number that is written with an exponent. -/
theorem exists_scientific (m : Nat) (power : Int) :
    ∃ d : Decimal, ((if ((Nat.toDigits 10 m).drop 1).isEmpty then String.ofList ((Nat.toDigits 10 m).take 1)
      else String.ofList ((Nat.toDigits 10 m).take 1) ++ "." ++ String.ofList ((Nat.toDigits 10 m).drop 1)) ++
        "e" ++ (if power < 0 then "-" else "+") ++ toString power.natAbs).toList = d.chars := by
  let ds := Digits.ofNat m
  have hsign : (if power < 0 then "-" else "+").toList = [if decide (power < 0) then '-' else '+'] := by
    split <;> simp_all
  by_cases h : 1 < ds.chars.length
  · refine ⟨{ whole := ds.take 1 Nat.one_pos, fraction := some (ds.drop 1 h)
              power := some (.signed (power < 0) (.ofNat power.natAbs)) }, ?_⟩
    have htail : (Nat.toDigits 10 m).tail ≠ [] := by
      rw [← List.length_pos_iff, List.length_tail]
      exact Nat.sub_pos_of_lt h
    simp [hsign, htail, Decimal.chars, Decimal.fractionChars, Decimal.powerChars, Exponent.chars, Exponent.signed, ds,
      Digits.take, Digits.drop, Digits.ofNat]
  · refine ⟨{ whole := ds.take 1 Nat.one_pos, power := some (.signed (power < 0) (.ofNat power.natAbs)) }, ?_⟩
    have htail : (Nat.toDigits 10 m).tail = [] := by
      rw [← List.length_eq_zero_iff, List.length_tail]
      exact Nat.sub_eq_zero_of_le (Nat.not_lt.mp h)
    simp [hsign, htail, Decimal.chars, Decimal.fractionChars, Decimal.powerChars, Exponent.chars, Exponent.signed, ds,
      Digits.take, Digits.ofNat]

theorem exists_float (x : Float) :
    ∃ d : Decimal, (floatText x).toList = d.chars ∨ (floatText x).toList = '-' :: d.chars := by
  have hbody : ∀ body : String, (∃ d : Decimal, body.toList = d.chars) →
      ∃ d : Decimal, (if Shortest.isNegative x then "-" ++ body else body).toList = d.chars ∨
        (if Shortest.isNegative x then "-" ++ body else body).toList = '-' :: d.chars := by
    rintro body ⟨d, hd⟩
    refine ⟨d, ?_⟩
    split
    · exact .inr (by simp [hd])
    · exact .inl hd
  refine hbody _ ?_
  split
  · exact ⟨{ whole := .ofNat 0, fraction := some (.ofNat 0) }, by decide⟩
  split
  · exact exists_positional _ _
  · exact exists_scientific _ _

theorem exists_decimal {n : Number} (h : n.Finite) :
    ∃ d : Decimal, n.text.toList = d.chars ∨ n.text.toList = '-' :: d.chars := by
  cases n with
  | int i =>
    have hnat (k : Nat) : k.repr.toList = ({ whole := .ofNat k } : Decimal).chars := by
      simp [Decimal.chars, Decimal.fractionChars, Decimal.powerChars, Digits.ofNat]
    refine ⟨{ whole := .ofNat i.natAbs }, ?_⟩
    rw [text, Int.toString_eq_repr]
    cases i with
    | ofNat k => exact .inl (hnat k)
    | negSucc k =>
      refine .inr ?_
      rw [show (Int.negSucc k).repr = "-" ++ (k + 1).repr from rfl, String.toList_append, hnat]
      rfl
  | float x =>
    simp only [text, h.1, h.2, Bool.or_self, Bool.false_eq_true, if_false]
    exact exists_float x

theorem legible_text {n : Number} (h : n.Finite) : (JsonTerm.number n.text).Legible := by
  obtain ⟨d, hd⟩ := exists_decimal h
  exact Decimal.legible hd

theorem slash_not_mem_text {n : Number} (h : n.Finite) : '/' ∉ n.text.toList := by
  obtain ⟨d, hd⟩ := exists_decimal h
  have hslash := d.not_mem_chars (c := '/') (by decide)
  rcases hd with hd | hd <;> simp [hd, hslash]

end Json.Number
end RequestLang

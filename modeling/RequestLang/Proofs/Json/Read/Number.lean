import RequestLang.Json.Reader
import RequestLang.Proofs.Json.Number
import RequestLang.Proofs.Steps
import RequestLang.Proofs.Token.Stops

/-! Blanks, marks and words that the reader of JSON takes off a text. -/
namespace RequestLang
open Lexer

namespace Json
variable {cs rest : List Char} {more : Bool}

theorem before_ne_ok {α β : Type} {cause : α} {cs : List Char} {b : β} :
    before cause cs ≠ (.ok b : Except (Located α) β) :=
  fun h => nomatch h

theorem within_ne_ok {α β : Type} {cause : α} {cs : List Char} {b : β} :
    within cause cs ≠ (.ok b : Except (Located α) β) :=
  fun h => nomatch h

theorem stops_dropWhile (p : Char → Bool) (cs : List Char) : Stops p (cs.dropWhile p) := by
  intro c hc
  have hnot := List.head?_dropWhile_not p cs
  rw [Option.mem_def.mp hc] at hnot
  simpa using hnot

theorem readWord_eq_ok {word cs rest : List Char} (h : readWord word cs = .ok rest) : cs = word ++ rest := by
  induction word generalizing cs with
  | nil =>
    rw [readWord, Except.ok.injEq] at h
    rw [h, List.nil_append]
  | cons w ws ih =>
    cases cs with
    | nil => exact absurd h before_ne_ok
    | cons c cs =>
      rw [readWord] at h
      split at h
      · rename_i hc
        rw [hc, ih h, List.cons_append]
      · exact absurd h within_ne_ok

/-- What is skipped are blanks and line ends. -/
theorem exists_gap (cs : List Char) : ∃ g, (∀ c ∈ g, isSpace c) ∧ cs = g ++ skipSpace cs :=
  ⟨cs.takeWhile isSpace, fun _ hc => List.mem_takeWhile_imp hc, List.takeWhile_append_dropWhile.symm⟩

theorem skipSpace_skipSpace (cs : List Char) : skipSpace (skipSpace cs) = skipSpace cs := List.dropWhile_idempotent ..

theorem readColon_eq_ok (h : readColon cs = .ok rest) : ∃ g, (∀ c ∈ g, isSpace c) ∧ cs = g ++ ':' :: rest := by
  obtain ⟨g, hg, hcs⟩ := exists_gap cs
  refine ⟨g, hg, ?_⟩
  unfold readColon at h
  split at h
  · exact absurd h before_ne_ok
  · rename_i hskip
    rw [hcs, hskip, Except.ok.inj h]
  · exact absurd h within_ne_ok

theorem readListStart_eq_ok (h : readListStart cs = .ok (more, rest)) : ∃ g, (∀ c ∈ g, isSpace c) ∧
    (more = false ∧ cs = g ++ ']' :: rest ∨ more = true ∧ cs = g ++ rest ∧ skipSpace rest = rest) := by
  obtain ⟨g, hg, hcs⟩ := exists_gap cs
  refine ⟨g, hg, ?_⟩
  unfold readListStart at h
  split at h
  · exact absurd h before_ne_ok
  · rename_i hskip
    obtain ⟨rfl, rfl⟩ := Prod.mk.inj (Except.ok.inj h)
    exact .inl ⟨rfl, by rw [hcs, hskip]⟩
  · obtain ⟨rfl, rfl⟩ := Prod.mk.inj (Except.ok.inj h)
    exact .inr ⟨rfl, hcs, skipSpace_skipSpace cs⟩

theorem readListGap_eq_ok (h : readListGap cs = .ok (more, rest)) : ∃ g, (∀ c ∈ g, isSpace c) ∧
    (more = false ∧ cs = g ++ ']' :: rest ∨
      more = true ∧ ∃ j, (∀ c ∈ j, isSpace c) ∧ cs = g ++ ',' :: (j ++ rest) ∧ skipSpace rest = rest) := by
  obtain ⟨g, hg, hcs⟩ := exists_gap cs
  refine ⟨g, hg, ?_⟩
  unfold readListGap at h
  split at h
  · exact absurd h before_ne_ok
  · rename_i hskip
    obtain ⟨rfl, rfl⟩ := Prod.mk.inj (Except.ok.inj h)
    exact .inl ⟨rfl, by rw [hcs, hskip]⟩
  · rename_i cs' hskip
    obtain ⟨j, hj, hcs'⟩ := exists_gap cs'
    split at h
    · exact absurd h before_ne_ok
    · exact absurd h within_ne_ok
    · obtain ⟨rfl, rfl⟩ := Prod.mk.inj (Except.ok.inj h)
      exact .inr ⟨rfl, j, hj, by rw [hcs, hskip, ← hcs'], skipSpace_skipSpace cs'⟩
  · exact absurd h within_ne_ok

theorem readObjectStart_eq_ok (h : readObjectStart cs = .ok (more, rest)) : ∃ g, (∀ c ∈ g, isSpace c) ∧
    (more = false ∧ cs = g ++ '\x7d' :: rest ∨ more = true ∧ cs = g ++ '"' :: rest) := by
  obtain ⟨g, hg, hcs⟩ := exists_gap cs
  refine ⟨g, hg, ?_⟩
  unfold readObjectStart at h
  split at h
  · exact absurd h before_ne_ok
  · rename_i hskip
    obtain ⟨rfl, rfl⟩ := Prod.mk.inj (Except.ok.inj h)
    exact .inr ⟨rfl, by rw [hcs, hskip]⟩
  · rename_i hskip
    obtain ⟨rfl, rfl⟩ := Prod.mk.inj (Except.ok.inj h)
    exact .inl ⟨rfl, by rw [hcs, hskip]⟩
  · exact absurd h within_ne_ok

theorem readObjectGap_eq_ok (h : readObjectGap cs = .ok (more, rest)) : ∃ g, (∀ c ∈ g, isSpace c) ∧
    (more = false ∧ cs = g ++ '\x7d' :: rest ∨
      more = true ∧ ∃ j, (∀ c ∈ j, isSpace c) ∧ cs = g ++ ',' :: (j ++ '"' :: rest)) := by
  obtain ⟨g, hg, hcs⟩ := exists_gap cs
  refine ⟨g, hg, ?_⟩
  unfold readObjectGap at h
  split at h
  · exact absurd h before_ne_ok
  · rename_i cs' hskip
    obtain ⟨j, hj, hcs'⟩ := exists_gap cs'
    split at h
    · exact absurd h before_ne_ok
    · rename_i hquote
      obtain ⟨rfl, rfl⟩ := Prod.mk.inj (Except.ok.inj h)
      exact .inr ⟨rfl, j, hj, by rw [hcs, hskip, ← hquote, ← hcs']⟩
    · exact absurd h within_ne_ok
    · exact absurd h within_ne_ok
  · rename_i hskip
    obtain ⟨rfl, rfl⟩ := Prod.mk.inj (Except.ok.inj h)
    exact .inl ⟨rfl, by rw [hcs, hskip]⟩
  · exact absurd h within_ne_ok

theorem readEnd_eq_ok (h : readEnd cs = .ok ()) : ∀ c ∈ cs, isSpace c := by
  obtain ⟨g, hg, hcs⟩ := exists_gap cs
  unfold readEnd at h
  split at h
  · rename_i hskip
    rwa [hcs, hskip, List.append_nil]
  · exact absurd h within_ne_ok

end Json

/-! Numbers that the reader of JSON takes off a text: decimal numbers whose value does not depend on what
follows them. -/

namespace Json

namespace Number
variable {negative : Bool} {significand : Nat} {e : Int} {cs rest : List Char} {x : Number}

/-- The digits at the front of a text. -/
theorem exists_digits (h : (cs.takeWhile Char.isDigit).isEmpty = false) :
    ∃ (ds : Digits) (tail : List Char), cs = ds.chars ++ tail ∧ Stops Char.isDigit tail :=
  ⟨⟨cs.takeWhile Char.isDigit, by simpa using h, fun _ hd => List.mem_takeWhile_imp hd⟩,
    cs.dropWhile Char.isDigit, List.takeWhile_append_dropWhile.symm, stops_dropWhile _ cs⟩

theorem ofParts_eq_ok (h : ofParts negative significand e cs = .ok (x, rest)) :
    rest = cs ∧ ∀ tail, ofParts negative significand e tail = .ok (x, tail) := by
  unfold ofParts at h ⊢
  dsimp only at h ⊢
  split at h
  · obtain ⟨hx, hrest⟩ := Prod.mk.inj (Except.ok.inj h)
    exact ⟨hrest.symm, fun tail => by rw [hx]⟩
  · exact absurd h before_ne_ok

/-- What an exponent comes to after its sign. -/
def exponentDigits (negative : Bool) (significand : Nat) (e : Int) (down : Bool) (cs : List Char) :
    Except Fault (Number × List Char) :=
  let ds := cs.takeWhile Char.isDigit
  if ds.isEmpty then within (if cs.isEmpty then .endInValue else .badNumber) cs
  else
    let n := Numeral.ofDigits ds
    let rest := cs.dropWhile Char.isDigit
    if exponentEnd ≤ n then
      if significand ≠ 0 ∧ !down then before .outOfRange (pastExponent 0 cs)
      else .ok (.float (if negative then -0.0 else 0.0), rest)
    else ofParts negative significand (if down then e - n else e + n) rest

theorem exponentDigits_eq_ok {down : Bool} (h : exponentDigits negative significand e down cs = .ok (x, rest)) :
    ∃ ds : Digits, cs = ds.chars ++ rest ∧ exponentDigits negative significand e down ds.chars = .ok (x, []) := by
  unfold exponentDigits at h
  dsimp only at h
  split at h
  · exact absurd h within_ne_ok
  rename_i hempty
  obtain ⟨ds, tail, rfl, hstops⟩ := exists_digits (Bool.eq_false_of_not_eq_true hempty)
  have htake := ds.takeWhile_append (stops_nil _)
  have hdrop := ds.dropWhile_append (stops_nil _)
  rw [List.append_nil] at htake hdrop
  rw [ds.takeWhile_append hstops, ds.dropWhile_append hstops] at h
  refine ⟨ds, ?_, ?_⟩
  · split at h
    · split at h
      · exact absurd h before_ne_ok
      · rw [(Prod.mk.inj (Except.ok.inj h)).2]
    · rw [(ofParts_eq_ok h).1]
  · unfold exponentDigits
    dsimp only
    rw [htake, hdrop, if_neg (by simpa using ds.nonempty)]
    split
    · rename_i hend
      rw [if_pos hend] at h
      split at h
      · exact absurd h before_ne_ok
      · rename_i hsmall
        rw [if_neg hsmall, (Prod.mk.inj (Except.ok.inj h)).1]
    · rename_i hend
      rw [if_neg hend] at h
      exact (ofParts_eq_ok h).2 []

def isSign (c : Char) : Bool := c == '+' || c == '-'

theorem readExponent_of_stops (h : Stops isSign cs) :
    readExponent negative significand e cs = exponentDigits negative significand e false cs := by
  cases cs with
  | nil => rfl
  | cons c cs =>
    rw [stops_cons, isSign, Bool.or_eq_false_iff, beq_eq_false_iff_ne, beq_eq_false_iff_ne] at h
    simp [readExponent, exponentDigits, h.1, h.2]

theorem stops_sign (ds : Digits) (tail : List Char) : Stops isSign (ds.chars ++ tail) := by
  obtain ⟨d, cs, hcs⟩ := List.exists_cons_of_ne_nil ds.nonempty
  have hdigit : d.isDigit := ds.digits d (hcs ▸ List.mem_cons_self)
  rw [hcs, List.cons_append, stops_cons, isSign, Bool.or_eq_false_iff, beq_eq_false_iff_ne, beq_eq_false_iff_ne]
  constructor <;> rintro rfl <;> simp at hdigit

/-- An exponent is complete, and it is read in the same way where nothing follows. -/
theorem readExponent_eq_ok (h : readExponent negative significand e cs = .ok (x, rest)) {letter : Char}
    (hletter : letter = 'e' ∨ letter = 'E') :
    ∃ p : Exponent, letter :: cs = p.chars ++ rest ∧ finish negative significand e p.chars = .ok (x, []) := by
  -- The sign is one of two characters or none, and what follows it is read in the same way.
  have hsigned (sign : List Char) (hsign : sign ∈ [[], ['+'], ['-']]) (down : Bool) (cs' : List Char)
      (h : exponentDigits negative significand e down cs' = .ok (x, rest)) (hread : ∀ ds : Digits,
        readExponent negative significand e (sign ++ ds.chars) = exponentDigits negative significand e down ds.chars) :
      ∃ p : Exponent, letter :: (sign ++ cs') = p.chars ++ rest ∧
        finish negative significand e p.chars = .ok (x, []) := by
    obtain ⟨ds, rfl, hds⟩ := exponentDigits_eq_ok h
    refine ⟨⟨letter, sign, ds, hletter, hsign⟩, by simp [Exponent.chars], ?_⟩
    rw [Exponent.chars, finish, if_pos hletter]
    exact (hread ds).trans hds
  by_cases hplus : ∃ cs', cs = '+' :: cs'
  · obtain ⟨cs', rfl⟩ := hplus
    exact hsigned ['+'] (by simp) false cs' h fun _ => rfl
  by_cases hminus : ∃ cs', cs = '-' :: cs'
  · obtain ⟨cs', rfl⟩ := hminus
    exact hsigned ['-'] (by simp) true cs' h fun _ => rfl
  · have hstops : Stops isSign cs := by
      cases cs with
      | nil => exact stops_nil _
      | cons c cs =>
        rw [stops_cons, isSign, Bool.or_eq_false_iff, beq_eq_false_iff_ne, beq_eq_false_iff_ne]
        exact ⟨fun hc => hplus ⟨cs, hc ▸ rfl⟩, fun hc => hminus ⟨cs, hc ▸ rfl⟩⟩
    rw [readExponent_of_stops hstops] at h
    refine hsigned [] (by simp) false cs h fun ds => ?_
    have hsign := stops_sign ds []
    rw [List.append_nil] at hsign
    exact readExponent_of_stops hsign

def isPower (c : Char) : Bool := c == 'e' || c == 'E'

/-- An exponent is taken if its letter is there, and nothing if not. -/
theorem finish_eq_ok (h : finish negative significand e cs = .ok (x, rest)) :
    ∃ power, cs = Decimal.powerChars power ++ rest ∧ (power = none → Stops isPower cs) ∧
      finish negative significand e (Decimal.powerChars power) = .ok (x, []) := by
  unfold finish at h
  split at h
  · split at h
    · rename_i letter cs hletter
      obtain ⟨p, hp, hfinish⟩ := readExponent_eq_ok h hletter
      exact ⟨some p, hp, fun hnone => absurd hnone (Option.some_ne_none p), hfinish⟩
    · rename_i c cs hletter
      obtain ⟨rfl, hparts⟩ := ofParts_eq_ok h
      exact ⟨none, rfl, fun _ => by simpa [isPower] using hletter, hparts []⟩
  · obtain ⟨rfl, hparts⟩ := ofParts_eq_ok h
    exact ⟨none, rfl, fun _ => stops_nil _, hparts []⟩

theorem readFraction_eq_ok (h : readFraction negative significand e cs = .ok (x, rest)) :
    ∃ (ds : Digits) (power : Option Exponent), cs = ds.chars ++ Decimal.powerChars power ++ rest ∧
      readFraction negative significand e (ds.chars ++ Decimal.powerChars power) = .ok (x, []) := by
  unfold readFraction at h
  dsimp only at h
  split at h
  · exact absurd h within_ne_ok
  rename_i hempty
  obtain ⟨ds, tail, rfl, hstops⟩ := exists_digits (Bool.eq_false_of_not_eq_true hempty)
  rw [ds.takeWhile_append hstops, ds.dropWhile_append hstops] at h
  obtain ⟨power, rfl, -, hfinish⟩ := finish_eq_ok h
  have hpower := Decimal.stops_powerChars power
  refine ⟨ds, power, (List.append_assoc ..).symm, ?_⟩
  unfold readFraction
  dsimp only
  rw [ds.takeWhile_append hpower, ds.dropWhile_append hpower, if_neg (by simpa using ds.nonempty)]
  exact hfinish

/-- What a number comes to after its digits, of which some may have been left out as too many. -/
def afterDigits (negative : Bool) (significand : Nat) (left : List Char) (cs : List Char) :
    Except Fault (Number × List Char) :=
  match cs with
  | '.' :: after => readFraction negative significand left.length after
  | c :: _ =>
    if c = 'e' ∨ c = 'E' ∨ !left.isEmpty then finish negative significand left.length cs
    else .ok (readUnsigned.whole negative significand, cs)
  | [] =>
    if left.isEmpty then .ok (readUnsigned.whole negative significand, cs)
    else finish negative significand left.length cs

theorem readUnsigned_digits (ds : Digits) {u : List Char} (hu : Stops Char.isDigit u) :
    readUnsigned negative (ds.chars ++ u) =
      if ds.chars.head? = some '0' ∧ 1 < ds.chars.length then within .badNumber ((ds.chars ++ u).drop 1)
      else afterDigits negative (accumulate 0 ds.chars).1 (accumulate 0 ds.chars).2 u := by
  unfold readUnsigned
  dsimp only
  rw [ds.takeWhile_append hu, ds.dropWhile_append hu, if_neg (by simpa using ds.nonempty)]
  rfl

/-- An exponent, or nothing, is all that may follow the digits of a whole number. -/
theorem afterDigits_of_finish {left : List Char} {power : Option Exponent}
    (h : finish negative significand left.length (Decimal.powerChars power) = .ok (x, []))
    (hleft : power = none → left.isEmpty = false) :
    afterDigits negative significand left (Decimal.powerChars power) = .ok (x, []) := by
  cases power with
  | none => rwa [Decimal.powerChars, afterDigits, hleft rfl, if_neg Bool.false_ne_true]
  | some p =>
    rcases p.isLetter with hl | hl <;> simpa [Decimal.powerChars, Exponent.chars, afterDigits, hl] using h

theorem afterDigits_eq_ok {left : List Char} (h : afterDigits negative significand left cs = .ok (x, rest)) :
    ∃ fraction power, cs = Decimal.fractionChars fraction ++ Decimal.powerChars power ++ rest ∧
      afterDigits negative significand left (Decimal.fractionChars fraction ++ Decimal.powerChars power) =
        .ok (x, []) := by
  unfold afterDigits at h
  split at h
  · obtain ⟨ds, power, rfl, hread⟩ := readFraction_eq_ok h
    exact ⟨some ds, power, by simp [Decimal.fractionChars], hread⟩
  · rename_i c cs hpoint
    split at h
    · rename_i hgo
      obtain ⟨power, hcs, hnone, hfinish⟩ := finish_eq_ok h
      refine ⟨none, power, hcs, afterDigits_of_finish hfinish fun hpower => ?_⟩
      have hletter : ¬(c = 'e' ∨ c = 'E') := by simpa [isPower] using hnone hpower
      rcases hgo with hgo | hgo | hgo
      · exact absurd (.inl hgo) hletter
      · exact absurd (.inr hgo) hletter
      · simpa using hgo
    · rename_i hgo
      obtain ⟨hx, rfl⟩ := Prod.mk.inj (Except.ok.inj h)
      have hleft : left.isEmpty = true := by
        by_contra hempty
        exact hgo (.inr (.inr (by simp [hempty])))
      exact ⟨none, none, rfl, by rw [← hx]; exact if_pos hleft⟩
  · split at h
    · rename_i hleft
      obtain ⟨hx, rfl⟩ := Prod.mk.inj (Except.ok.inj h)
      exact ⟨none, none, rfl, by rw [← hx]; exact if_pos hleft⟩
    · rename_i hleft
      obtain ⟨power, hcs, -, hfinish⟩ := finish_eq_ok h
      exact ⟨none, power, hcs, afterDigits_of_finish hfinish fun _ => Bool.eq_false_of_not_eq_true hleft⟩

theorem readUnsigned_eq_ok (h : readUnsigned negative cs = .ok (x, rest)) :
    ∃ d : Decimal, cs = d.chars ++ rest ∧ readUnsigned negative d.chars = .ok (x, []) := by
  have hempty : (cs.takeWhile Char.isDigit).isEmpty = false := by
    by_contra hempty
    rw [Bool.not_eq_false] at hempty
    unfold readUnsigned at h
    dsimp only at h
    rw [if_pos hempty] at h
    exact absurd h within_ne_ok
  obtain ⟨ds, tail, rfl, hstops⟩ := exists_digits hempty
  rw [readUnsigned_digits ds hstops] at h
  split at h
  · exact absurd h within_ne_ok
  rename_i hzero
  obtain ⟨fraction, power, rfl, hafter⟩ := afterDigits_eq_ok h
  let d : Decimal := ⟨ds, fraction, power⟩
  refine ⟨d, by simp [d, Decimal.chars], ?_⟩
  have hread := @readUnsigned_digits negative ds _ d.stops_tail
  rwa [if_neg hzero, hafter] at hread

/-- What is read is a decimal number, perhaps with a sign, and a number by itself. -/
theorem read_eq_ok (h : read cs = .ok (x, rest)) : ∃ sign, ∃ d : Decimal, (sign = [] ∨ sign = ['-']) ∧
    cs = sign ++ d.chars ++ rest ∧ parse? (String.ofList (sign ++ d.chars)) = some x := by
  have hparse {cs : List Char} (h : read cs = .ok (x, [])) : parse? (String.ofList cs) = some x := by
    rw [parse?, String.toList_ofList, h]
  unfold read at h
  split at h
  · obtain ⟨d, rfl, hread⟩ := readUnsigned_eq_ok h
    exact ⟨['-'], d, .inr rfl, rfl, hparse hread⟩
  · obtain ⟨d, rfl, hread⟩ := readUnsigned_eq_ok h
    refine ⟨[], d, .inl rfl, rfl, hparse ?_⟩
    obtain ⟨c, cs, hc, hdigit⟩ := d.head_chars
    have hminus : c ≠ '-' := by
      rintro rfl
      cases hdigit
    rw [List.nil_append]
    unfold read
    split
    · rename_i hcons
      rw [hc] at hcons
      exact absurd (List.cons.inj hcons).1 hminus
    · exact hread

end Number

end Json
end RequestLang

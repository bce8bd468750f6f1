import RequestLang.Proofs.Token.Stops

/-! How far a number goes. -/
namespace RequestLang.Lexer

/-- Digits, a point and the letter of an exponent may go on with a number. -/
def extendsNumber (c : Char) : Bool := c.isDigit || c == '.' || c == 'e' || c == 'E'

def fractionLength : List Char → Nat
  | '.' :: ds => let n := run Char.isDigit ds; if n = 0 then 0 else n + 1
  | _ => 0

def exponentLength : List Char → Nat
  | e :: ds =>
    if e = 'e' ∨ e = 'E' then
      match ds with
      | s :: ds' =>
        if s = '+' ∨ s = '-' then
          let n := run Char.isDigit ds'; if n = 0 then 0 else n + 2
        else
          let n := run Char.isDigit ds; if n = 0 then 0 else n + 1
      | [] => 0
    else 0
  | [] => 0

theorem numberLength_eq (cs : List Char) :
    numberLength cs = run Char.isDigit cs + fractionLength (cs.drop (run Char.isDigit cs)) +
      exponentLength ((cs.drop (run Char.isDigit cs)).drop
        (fractionLength (cs.drop (run Char.isDigit cs)))) := rfl

theorem stops_isDigit {rest : List Char} (hr : Stops extendsNumber rest) : Stops Char.isDigit rest := by
  intro c hc
  have := hr c hc
  simp only [extendsNumber, Bool.or_eq_false_iff] at this
  exact this.1.1.1

theorem fractionLength_append {rest : List Char} (hr : Stops extendsNumber rest) (cs : List Char) :
    fractionLength (cs ++ rest) = fractionLength cs := by
  cases cs with
  | nil =>
    cases rest with
    | nil => rfl
    | cons c rest =>
      have : c ≠ '.' := by
        rintro rfl
        simp [extendsNumber] at hr
      simp [fractionLength, this]
  | cons c cs =>
    by_cases hc : c = '.'
    · subst hc
      simp [fractionLength, run_append_of_stops (stops_isDigit hr)]
    · simp [fractionLength, hc]

theorem fractionLength_le (cs : List Char) : fractionLength cs ≤ cs.length := by
  unfold fractionLength
  split
  · rename_i ds
    have := run_le_length Char.isDigit ds
    simp only [List.length_cons]
    split <;> omega
  · omega

/-- An exponent that is complete does not grow. -/
theorem exponentLength_append {cs rest : List Char} (hr : Stops extendsNumber rest)
    (h : exponentLength cs = cs.length) : exponentLength (cs ++ rest) = cs.length := by
  have hrun := run_append_of_stops (stops_isDigit hr)
  cases cs with
  | nil =>
    cases rest with
    | nil => rfl
    | cons c rest =>
      have : ¬(c = 'e' ∨ c = 'E') := by
        rintro (rfl | rfl) <;> simp [extendsNumber] at hr
      simp [exponentLength, this]
  | cons e ds =>
    rw [← h]
    cases ds with
    | nil => simp [exponentLength] at h
    | cons s ds =>
      have hrun' := hrun (s :: ds)
      rw [List.cons_append] at hrun'
      simp [exponentLength, hrun, hrun']

theorem numberLength_append {cs rest : List Char} (h : numberLength cs = cs.length)
    (hr : Stops extendsNumber rest) : numberLength (cs ++ rest) = cs.length := by
  rw [numberLength_eq] at h ⊢
  have hwhole := run_le_length Char.isDigit cs
  have hfraction := fractionLength_le (cs.drop (run Char.isDigit cs))
  rw [run_append_of_stops (stops_isDigit hr), List.drop_append_of_le_length hwhole,
    fractionLength_append hr, List.drop_append_of_le_length hfraction, exponentLength_append hr]
  · simp only [List.length_drop] at hfraction ⊢
    omega
  · simp only [List.length_drop] at hfraction ⊢
    omega

/-- The exponent that a text begins with is complete by itself. -/
theorem exponentLength_take (cs : List Char) :
    exponentLength (cs.take (exponentLength cs)) = exponentLength cs := by
  cases cs with
  | nil => rfl
  | cons e ds =>
    by_cases he : e = 'e' ∨ e = 'E'
    · cases ds with
      | nil => simp [exponentLength, he]
      | cons s ds =>
        by_cases hs : s = '+' ∨ s = '-'
        · by_cases hn : run Char.isDigit ds = 0
          · simp [exponentLength, he, hs, hn]
          · simp [exponentLength, he, hs, hn, run_take]
        · by_cases hn : run Char.isDigit (s :: ds) = 0
          · simp [exponentLength, he, hs, hn]
          · have htake : ∃ ts, (s :: ds).take (run Char.isDigit (s :: ds)) = s :: ts := by
              obtain ⟨m, hm⟩ := Nat.exists_eq_succ_of_ne_zero hn
              exact ⟨ds.take m, by rw [hm]; rfl⟩
            obtain ⟨ts, hts⟩ := htake
            have hrun : run Char.isDigit (s :: ts) = run Char.isDigit (s :: ds) := by
              rw [← hts, run_take, Nat.min_self]
            simp [exponentLength, he, hs, hn, hts, hrun]
    · simp [exponentLength, he]

theorem fractionLength_take (cs : List Char) (n : Nat) :
    fractionLength (cs.take (fractionLength cs + n)) = fractionLength cs := by
  cases cs with
  | nil => simp
  | cons c ds =>
    by_cases hc : c = '.'
    · subst hc
      by_cases hr : run Char.isDigit ds = 0
      · cases n <;> simp [fractionLength, hr, run_take]
      · have htake : ('.' :: ds).take (run Char.isDigit ds + 1 + n) =
            '.' :: ds.take (run Char.isDigit ds + n) := by
          rw [Nat.add_right_comm]
          rfl
        have hmin : min (run Char.isDigit ds) (run Char.isDigit ds + n) = run Char.isDigit ds := by
          omega
        simp [fractionLength, hr, htake, run_take]
    · cases n <;> simp [fractionLength, hc]

/-- The number that a text begins with is one by itself. -/
theorem numberLength_take (cs : List Char) :
    numberLength (cs.take (numberLength cs)) = numberLength cs := by
  let whole := run Char.isDigit cs
  let after := cs.drop whole
  let fraction := fractionLength after
  let exponent := exponentLength (after.drop fraction)
  have hn : numberLength cs = whole + fraction + exponent := numberLength_eq cs
  have hwhole : run Char.isDigit (cs.take (whole + fraction + exponent)) = whole := by
    rw [run_take]
    omega
  have hafter : (cs.take (whole + fraction + exponent)).drop whole = after.take (fraction + exponent) := by
    rw [List.drop_take]
    congr 1
    omega
  have hfraction : fractionLength (after.take (fraction + exponent)) = fraction :=
    fractionLength_take after exponent
  have hexponent : exponentLength ((after.take (fraction + exponent)).drop fraction) = exponent := by
    rw [List.drop_take, Nat.add_sub_cancel_left]
    exact exponentLength_take _
  rw [hn, numberLength_eq, hwhole, hafter, hfraction, hexponent]

/-- The characters of numbers. -/
def isNumberChar (c : Char) : Bool := extendsNumber c || c == '+' || c == '-'

theorem mem_take_run {p : Char → Bool} {cs : List Char} {c : Char} (h : c ∈ cs.take (run p cs)) : p c := by
  have : cs.take (run p cs) = cs.takeWhile p :=
    (List.prefix_iff_eq_take.mp (List.takeWhile_prefix p)).symm
  rw [this] at h
  exact List.all_eq_true.mp List.all_takeWhile c h

theorem isNumberChar_of_isDigit {c : Char} (h : c.isDigit) : isNumberChar c := by
  simp [isNumberChar, extendsNumber, h]

/-- Nothing, or a point with digits behind it. -/
inductive IsFraction : List Char → Prop
  | none : IsFraction []
  | digits {d : Char} {ds : List Char} (hds : ∀ c ∈ d :: ds, c.isDigit) : IsFraction ('.' :: d :: ds)

/-- Nothing, or the letter of an exponent with digits behind it. -/
inductive IsExponent : List Char → Prop
  | none : IsExponent []
  | signed {e s d : Char} {ds : List Char} (he : e = 'e' ∨ e = 'E') (hs : s = '+' ∨ s = '-')
      (hds : ∀ c ∈ d :: ds, c.isDigit) : IsExponent (e :: s :: d :: ds)
  | unsigned {e d : Char} {ds : List Char} (he : e = 'e' ∨ e = 'E') (hds : ∀ c ∈ d :: ds, c.isDigit) :
      IsExponent (e :: d :: ds)

theorem exists_take_run {cs : List Char} (h : run Char.isDigit cs ≠ 0) :
    ∃ d ds, cs.take (run Char.isDigit cs) = d :: ds ∧ ∀ c ∈ d :: ds, c.isDigit := by
  have hall : ∀ c ∈ cs.take (run Char.isDigit cs), c.isDigit := fun c => mem_take_run
  cases htake : cs.take (run Char.isDigit cs) with
  | nil =>
    have hlength := congrArg List.length htake
    have hle := run_le_length Char.isDigit cs
    rw [List.length_take, List.length_nil] at hlength
    omega
  | cons d ds => exact ⟨d, ds, rfl, htake ▸ hall⟩

theorem isFraction_take (cs : List Char) : IsFraction (cs.take (fractionLength cs)) := by
  unfold fractionLength
  split
  · rename_i ds
    dsimp only
    split
    · exact .none
    · rename_i hn
      obtain ⟨d, ds, hds, hall⟩ := exists_take_run hn
      rw [List.take_succ_cons, hds]
      exact .digits hall
  · exact .none

theorem isExponent_take (cs : List Char) : IsExponent (cs.take (exponentLength cs)) := by
  unfold exponentLength
  split
  · rename_i e ds
    split
    · rename_i he
      split
      · rename_i s ds
        split
        · rename_i hs
          dsimp only
          split
          · exact .none
          · rename_i hn
            obtain ⟨d, ds, hds, hall⟩ := exists_take_run hn
            rw [List.take_succ_cons, List.take_succ_cons, hds]
            exact .signed he hs hall
        · dsimp only
          split
          · exact .none
          · rename_i hn
            obtain ⟨d, ds, hds, hall⟩ := exists_take_run hn
            rw [List.take_succ_cons, hds]
            exact .unsigned he hall
      · exact .none
    · exact .none
  · exact .none

/-- A number is a whole part, a fraction and an exponent. -/
theorem exists_decimal {cs : List Char} (h : numberLength cs = cs.length) :
    ∃ whole fraction exponent, cs = whole ++ (fraction ++ exponent) ∧ (∀ c ∈ whole, c.isDigit) ∧
      IsFraction fraction ∧ IsExponent exponent := by
  have hwhole : cs = cs.take (numberLength cs) := by rw [h, List.take_length]
  rw [numberLength_eq, List.take_add, List.take_add, ← List.drop_drop, List.append_assoc] at hwhole
  exact ⟨_, _, _, hwhole, fun c => mem_take_run, isFraction_take _, isExponent_take _⟩

theorem IsFraction.isNumberChar {cs : List Char} (h : IsFraction cs) : ∀ c ∈ cs, isNumberChar c := by
  cases h with
  | none => nofun
  | digits hds => exact List.forall_mem_cons.mpr ⟨by decide, fun c hc => isNumberChar_of_isDigit (hds c hc)⟩

theorem IsExponent.isNumberChar {cs : List Char} (h : IsExponent cs) : ∀ c ∈ cs, isNumberChar c := by
  cases h with
  | none => nofun
  | signed he hs hds =>
    refine List.forall_mem_cons.mpr ⟨by rcases he with rfl | rfl <;> decide, ?_⟩
    exact List.forall_mem_cons.mpr ⟨by rcases hs with rfl | rfl <;> decide, fun c hc => isNumberChar_of_isDigit (hds c hc)⟩
  | unsigned he hds =>
    exact List.forall_mem_cons.mpr ⟨by rcases he with rfl | rfl <;> decide, fun c hc => isNumberChar_of_isDigit (hds c hc)⟩

/-- A number consists of digits, points, signs and exponent letters. -/
theorem mem_take_number {cs : List Char} {c : Char} (h : c ∈ cs.take (numberLength cs)) : isNumberChar c := by
  rw [numberLength_eq, List.take_add, List.take_add, ← List.drop_drop, List.mem_append, List.mem_append] at h
  rcases h with (h | h) | h
  · exact isNumberChar_of_isDigit (mem_take_run h)
  · exact (isFraction_take _).isNumberChar c h
  · exact (isExponent_take _).isNumberChar c h

end RequestLang.Lexer

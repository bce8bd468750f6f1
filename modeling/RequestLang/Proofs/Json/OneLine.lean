import RequestLang.Proofs.Json.Number

/-! JSON on one line: text that is written without a step has no line feed, and text with one has
wherever there are items or members. -/
namespace RequestLang.Json

/-- A number is written with characters of numbers, or as nothing. -/
theorem not_mem_text {c : Char} (hc : Lexer.isNumberChar c = false) (hnull : c ∉ "null".toList) (n : Number) :
    c ∉ n.text.toList := by
  have hminus : c ≠ '-' := by
    rintro rfl
    exact absurd hc (by decide)
  have hfinite (h : n.Finite) : c ∉ n.text.toList := by
    obtain ⟨d, hd⟩ := Number.exists_decimal h
    rcases hd with hd | hd <;> simp [hd, d.not_mem_chars hc, hminus]
  cases n with
  | int i => exact hfinite trivial
  | float x =>
    by_cases hx : x.isNaN || x.isInf
    · have htext : (Number.float x).text = "null" := if_pos hx
      rwa [htext]
    · exact hfinite (by simpa [Number.Finite] using hx)

theorem isAlphanum_hexDigit (n : Nat) : (hexDigit n).isAlphanum := by
  have h : ∀ m < 16, ((Nat.toDigits 16 m).headD '0').isAlphanum := by decide
  exact h (n % 16) (Nat.mod_lt n (by decide))

theorem feed_not_mem_escapeChar (c : Char) : '\n' ∉ escapeChar c := by
  have hhex (n : Nat) : '\n' ≠ hexDigit n := by
    intro h
    have := isAlphanum_hexDigit n
    rw [← h] at this
    exact absurd this (by decide)
  unfold escapeChar
  split_ifs with _ _ hfeed <;> simp [hhex, eq_comm]
  exact hfeed

theorem feed_not_mem_quoted (s : String) : '\n' ∉ (quoted s).toList := by
  simp [quoted, feed_not_mem_escapeChar]

/-- Nothing that sets parts apart has a line feed. -/
structure Layout.IsFlat (l : Layout) : Prop where
  step : l.step = none
  comma : '\n' ∉ l.comma.toList
  colon : '\n' ∉ l.colon.toList

theorem Layout.isFlat_spaced : Layout.IsFlat .spaced := ⟨rfl, by decide, by decide⟩

section
variable {l : Layout}

theorem feed_not_mem_enclose (hl : l.IsFlat) {opening closing : String} (hopening : '\n' ∉ opening.toList)
    (hclosing : '\n' ∉ closing.toList) (depth : Nat) {parts : List String}
    (h : ∀ part ∈ parts, '\n' ∉ part.toList) : '\n' ∉ (l.enclose opening closing depth parts).toList := by
  have hline (d : Nat) : l.newline d = "" := by simp [Layout.newline, hl.step]
  unfold Layout.enclose
  split
  · simp [hopening, hclosing]
  · have hparts : '\n' ∉ (l.comma.toList).intercalate (parts.map String.toList) :=
      Text.not_mem_intercalate hl.comma (by simpa using h)
    simp [hline, hopening, hclosing, String.toList_intercalate, hparts]

mutual

theorem feed_not_mem_write (hl : l.IsFlat) (depth : Nat) (v : Json) : '\n' ∉ (v.write l depth).toList := by
  cases v with
  | null => simp [write]
  | bool b => cases b <;> simp [write]
  | number n => exact not_mem_text (by decide) (by decide) n
  | str s => exact feed_not_mem_quoted s
  | arr items =>
    exact feed_not_mem_enclose hl (by decide) (by decide) depth (feed_not_mem_writeItems hl (depth + 1) items)
  | obj members =>
    exact feed_not_mem_enclose hl (by decide) (by decide) depth (feed_not_mem_writeMembers hl (depth + 1) members)

theorem feed_not_mem_writeItems (hl : l.IsFlat) (depth : Nat) (vs : List Json) :
    ∀ part ∈ writeItems l depth vs, '\n' ∉ part.toList := by
  cases vs with
  | nil => simp [writeItems]
  | cons v vs =>
    rw [writeItems]
    exact List.forall_mem_cons.mpr ⟨feed_not_mem_write hl depth v, feed_not_mem_writeItems hl depth vs⟩

theorem feed_not_mem_writeMembers (hl : l.IsFlat) (depth : Nat) (ms : List (String × Json)) :
    ∀ part ∈ writeMembers l depth ms, '\n' ∉ part.toList := by
  cases ms with
  | nil => simp [writeMembers]
  | cons m ms =>
    obtain ⟨k, v⟩ := m
    rw [writeMembers]
    refine List.forall_mem_cons.mpr ⟨?_, feed_not_mem_writeMembers hl depth ms⟩
    simp [feed_not_mem_quoted, hl.colon, feed_not_mem_write hl depth v]

end

end

/-- There is something to be set apart. -/
def hasParts : Json → Bool
  | .arr items => !items.isEmpty
  | .obj members => !members.isEmpty
  | _ => false

theorem feed_mem_enclose (step : Nat) (opening closing : String) (depth : Nat) {parts : List String}
    (h : parts ≠ []) : '\n' ∈ ((Layout.pretty step).enclose opening closing depth parts).toList := by
  simp [Layout.enclose, Layout.newline, Layout.pretty, h]

theorem feed_mem_pretty (step : Nat) {v : Json} (h : v.hasParts) : '\n' ∈ (v.pretty step).toList := by
  cases v with
  | arr items =>
    refine feed_mem_enclose step _ _ _ ?_
    cases items with
    | nil => cases h
    | cons v vs => simp [writeItems]
  | obj members =>
    refine feed_mem_enclose step _ _ _ ?_
    cases members with
    | nil => cases h
    | cons m ms => simp [writeMembers]
  | _ => cases h

/-- Lines of their own make a difference wherever there is something to be set apart. -/
theorem pretty_eq_spaced (step : Nat) (v : Json) : v.pretty step = v.spaced ↔ v.hasParts = false := by
  constructor
  · intro heq
    refine Bool.eq_false_iff.mpr fun h => feed_not_mem_write Layout.isFlat_spaced 0 v ?_
    rw [← spaced, ← heq]
    exact feed_mem_pretty step h
  · intro h
    cases v with
    | arr items =>
      obtain rfl : items = [] := by simpa [hasParts] using h
      rfl
    | obj members =>
      obtain rfl : members = [] := by simpa [hasParts] using h
      rfl
    | _ => rfl

end RequestLang.Json

import Mathlib
import RequestLang.Text.Blank
import RequestLang.Text.Word

/-! Digits, name characters and word characters, one class inside the other, and blanks. -/
namespace RequestLang.Text

theorem isDigit_of_isNameStart {c : Char} (hc : isNameStart c) : c.isDigit = false := by
  rw [Bool.eq_false_iff]
  intro h
  simp only [isNameStart, Char.isAlpha, Char.isUpper, Char.isLower, Char.isDigit, Bool.or_eq_true,
    Bool.and_eq_true, decide_eq_true_eq, beq_iff_eq, UInt32.le_iff_toNat_le, ge_iff_le] at hc h
  rcases hc with (hc | hc) | rfl
  · have : 'A'.val.toNat = 65 := rfl
    have : '9'.val.toNat = 57 := rfl
    omega
  · have : 'a'.val.toNat = 97 := rfl
    have : '9'.val.toNat = 57 := rfl
    omega
  · simp at h

theorem isNameChar_of_isNameStart {c : Char} (hc : isNameStart c) : isNameChar c := by
  simp only [isNameStart, isNameChar, Char.isAlphanum, Bool.or_eq_true] at *
  rcases hc with h | h
  · exact .inl (.inl h)
  · exact .inr h

/-- Name characters by their numbers. -/
theorem toNat_of_isNameChar {c : Char} (hc : isNameChar c) : 48 ≤ c.toNat ∧ c.toNat ≤ 122 := by
  simp only [isNameChar, Char.isAlphanum, Char.isAlpha, Char.isUpper, Char.isLower, Char.isDigit,
    Bool.or_eq_true, Bool.and_eq_true, decide_eq_true_eq, UInt32.le_iff_toNat_le, ge_iff_le,
    beq_iff_eq] at hc
  have : c.toNat = c.val.toNat := rfl
  have : 'A'.val.toNat = 65 := rfl
  have : 'Z'.val.toNat = 90 := rfl
  have : 'a'.val.toNat = 97 := rfl
  have : 'z'.val.toNat = 122 := rfl
  have : '0'.val.toNat = 48 := rfl
  have : '9'.val.toNat = 57 := rfl
  rcases hc with ((hc | hc) | hc) | rfl
  · omega
  · omega
  · omega
  · decide

theorem isBlank_of_toNat {c : Char} (h : 33 ≤ c.toNat ∧ c.toNat ≤ 132) : isBlank c = false := by
  rw [← Bool.not_eq_true]
  intro hb
  simp only [isBlank, Bool.or_eq_true, Bool.and_eq_true, decide_eq_true_eq, beq_iff_eq] at hb
  omega

theorem isBlank_of_isNameChar {c : Char} (hc : isNameChar c) : isBlank c = false := by
  have := toNat_of_isNameChar hc
  exact isBlank_of_toNat ⟨by omega, by omega⟩

theorem isWord_of_isNameChar {c : Char} (hc : isNameChar c) : isWord c := by
  have hlt : c.toNat < 128 := by
    have := toNat_of_isNameChar hc
    omega
  simpa [isWord, hlt, isNameChar] using hc

/-! Texts without blanks at their ends stay as they are when they are trimmed. -/

theorem trimLeft_eq_self {cs : List Char} (h : ∀ c ∈ cs.head?, isBlank c = false) :
    trimLeft cs = cs := by
  cases cs with
  | nil => rfl
  | cons c cs =>
    have hc : isBlank c = false := h c rfl
    simp [trimLeft, hc]

theorem head?_trimLeft (cs : List Char) : ∀ c ∈ (trimLeft cs).head?, isBlank c = false := by
  induction cs with
  | nil => simp [trimLeft]
  | cons c cs ih =>
    by_cases hc : isBlank c
    · simpa [trimLeft, hc] using ih
    · simp [trimLeft, hc]

@[simp] theorem trimLeft_trimLeft (cs : List Char) : trimLeft (trimLeft cs) = trimLeft cs :=
  trimLeft_eq_self (head?_trimLeft cs)

@[simp] theorem trimRight_trimRight (cs : List Char) : trimRight (trimRight cs) = trimRight cs := by
  have := trimLeft_trimLeft cs.reverse
  unfold trimLeft at this
  simp [trimRight, this]

theorem trimRight_isPrefix (cs : List Char) : trimRight cs <+: cs := by
  have h : cs.reverse.dropWhile isBlank <:+ cs.reverse := List.dropWhile_suffix _
  rw [← List.reverse_prefix] at h
  simpa [trimRight] using h

theorem trimRight_append_of_blank {g : List Char} (hg : ∀ c ∈ g, isBlank c) (cs : List Char) :
    trimRight (cs ++ g) = trimRight cs := by
  have := trimLeft_append_of_blank (g := g.reverse) (by simpa using hg) cs.reverse
  unfold trimLeft at this
  rw [trimRight, List.reverse_append, this, trimRight]

theorem trimRight_append_feed (cs : List Char) : trimRight (cs ++ ['\n']) = trimRight cs :=
  trimRight_append_of_blank (fun c hc => by rw [List.mem_singleton.mp hc]; decide) cs

/-- Nothing is left of blanks alone. -/
theorem trimRight_of_blank {cs : List Char} (h : ∀ c ∈ cs, isBlank c) : trimRight cs = [] :=
  trimRight_append_of_blank h []

theorem trimRight_eq_self {cs : List Char} (h : ∀ c ∈ cs.getLast?, isBlank c = false) :
    trimRight cs = cs := by
  rw [trimRight, ← trimLeft, trimLeft_eq_self (by simpa using h), List.reverse_reverse]

theorem head?_trimChars (cs : List Char) : ∀ c ∈ (trimChars cs).head?, isBlank c = false := by
  intro c hc
  obtain ⟨rest, hrest⟩ := trimRight_isPrefix (trimLeft cs)
  refine head?_trimLeft cs c ?_
  rw [← hrest]
  unfold trimChars at hc
  cases ht : trimRight (trimLeft cs) with
  | nil => simp [ht] at hc
  | cons d ds => simpa [ht] using hc

@[simp] theorem trimChars_trimChars (cs : List Char) : trimChars (trimChars cs) = trimChars cs := by
  have h : trimLeft (trimChars cs) = trimChars cs := trimLeft_eq_self (head?_trimChars cs)
  rw [trimChars, h]
  exact trimRight_trimRight _

theorem mem_trimChars {c : Char} {cs : List Char} (h : c ∈ cs) (hc : isBlank c = false) : c ∈ trimChars cs := by
  have hdrop {ds : List Char} (h : c ∈ ds) : c ∈ ds.dropWhile isBlank := by
    rw [← List.takeWhile_append_dropWhile (p := isBlank) (l := ds), List.mem_append] at h
    refine h.resolve_left fun hmem => ?_
    rw [List.mem_takeWhile_imp hmem] at hc
    cases hc
  exact List.mem_reverse.mpr (hdrop (List.mem_reverse.mpr (hdrop h)))

end RequestLang.Text

import Mathlib
import RequestLang.Text.Search

/-! The first occurrence of a mark: where it ends, and what a longer text does to it. -/
namespace RequestLang.Text

variable {mark cs : List Char} {n : Nat}

theorem length_le_of_through? (h : through? mark cs = some n) : mark.length ≤ n ∧ n ≤ cs.length := by
  induction cs generalizing n with
  | nil =>
    simp only [through?] at h
    split at h
    · rename_i hm
      cases h
      simp [List.isEmpty_iff.mp hm]
    · cases h
  | cons c cs ih =>
    simp only [through?] at h
    split at h
    · rename_i hp
      cases h
      exact ⟨Nat.le_refl _, (List.isPrefixOf_iff_prefix.mp hp).length_le⟩
    · obtain ⟨m, hm, rfl⟩ := Option.map_eq_some_iff.mp h
      obtain ⟨h₁, h₂⟩ := ih hm
      simp only [List.length_cons]
      omega

/-- What stands behind the first occurrence does not matter. -/
theorem through?_append (h : through? mark cs = some n) (rest : List Char) :
    through? mark (cs ++ rest) = some n := by
  induction cs generalizing n with
  | nil =>
    simp only [through?] at h
    split at h
    · rename_i hm
      cases h
      cases rest <;> simp_all [through?]
    · cases h
  | cons c cs ih =>
    have hlen := length_le_of_through? h
    simp only [through?] at h
    simp only [List.cons_append, through?]
    split at h
    · rename_i hp
      have hp' : mark.isPrefixOf (c :: (cs ++ rest)) := by
        rw [List.isPrefixOf_iff_prefix] at hp ⊢
        exact hp.trans (List.prefix_append (c :: cs) rest)
      rw [if_pos hp', ← h]
    · rename_i hp
      obtain ⟨m, hm, rfl⟩ := Option.map_eq_some_iff.mp h
      have hp' : ¬ mark.isPrefixOf (c :: (cs ++ rest)) := by
        intro hp'
        rw [List.isPrefixOf_iff_prefix] at hp hp'
        refine hp (List.prefix_of_prefix_length_le hp' (List.prefix_append (c :: cs) rest) ?_)
        exact Nat.le_trans hlen.1 hlen.2
      rw [if_neg hp', ih hm]
      rfl

theorem holds_iff_infix (hm : mark ≠ []) : holds mark cs = true ↔ mark <:+: cs := by
  induction cs with
  | nil => simp [holds, through?, hm]
  | cons c cs ih =>
    unfold holds at ih ⊢
    simp only [through?, List.infix_cons_iff, List.isPrefixOf_iff_prefix]
    split
    · rename_i hp
      simp [hp]
    · rename_i hp
      simp [hp, ih]

/-- An occurrence of the mark bounds where the first one ends. -/
theorem through?_le (mark before rest : List Char) :
    ∃ n, through? mark (before ++ mark ++ rest) = some n ∧ n ≤ before.length + mark.length := by
  induction before with
  | nil =>
    cases mark with
    | nil => cases rest <;> simp [through?]
    | cons m ms => simp [through?, List.isPrefixOf_iff_prefix]
  | cons c before ih =>
    obtain ⟨n, hn, hle⟩ := ih
    simp only [List.cons_append, through?, List.length_cons]
    split
    · exact ⟨_, rfl, by omega⟩
    · exact ⟨n + 1, by rw [hn]; rfl, by omega⟩

/-- A text and the mark behind it hold the mark nowhere before. -/
theorem take_of_through? (h : through? mark cs = some n) :
    ∃ before, cs = before ++ mark ++ cs.drop n ∧ n = before.length + mark.length := by
  induction cs generalizing n with
  | nil =>
    simp only [through?] at h
    split at h
    · rename_i hm
      cases h
      exact ⟨[], by simp [List.isEmpty_iff.mp hm]⟩
    · cases h
  | cons c cs ih =>
    simp only [through?] at h
    split at h
    · rename_i hp
      cases h
      obtain ⟨t, ht⟩ := List.isPrefixOf_iff_prefix.mp hp
      refine ⟨[], ?_, by simp⟩
      rw [← ht]
      simp
    · obtain ⟨m, hm, rfl⟩ := Option.map_eq_some_iff.mp h
      obtain ⟨before, hb, hn⟩ := ih hm
      refine ⟨c :: before, ?_, by simp only [List.length_cons]; omega⟩
      simp only [List.cons_append, List.drop_succ_cons]
      rw [← hb]

theorem append_mark_of_through? (h : through? mark cs = some cs.length) : ∃ before, cs = before ++ mark := by
  obtain ⟨before, hb, -⟩ := take_of_through? h
  rw [List.drop_length, List.append_nil] at hb
  exact ⟨before, hb⟩

/-- An occurrence at the end of a text is the first one there as soon as it is in a longer text. -/
theorem through?_of_append {rest : List Char} (h : through? mark (cs ++ rest) = some cs.length) :
    through? mark cs = some cs.length := by
  obtain ⟨before, hb, hlen⟩ := take_of_through? h
  rw [List.drop_left] at hb
  have hcs : cs = before ++ mark := List.append_cancel_right hb
  obtain ⟨n, hn, -⟩ := through?_le mark before []
  rw [List.append_nil, ← hcs] at hn
  have := through?_append hn rest
  rw [h] at this
  rwa [this]

theorem holds_cons {c : Char} : holds mark (c :: cs) = (mark.isPrefixOf (c :: cs) || holds mark cs) := by
  unfold holds
  rw [through?]
  split
  · rename_i h
    simp [h]
  · rename_i h
    simp [h]

section

variable {a b : Char}

/-- An occurrence of two characters in two texts side by side. -/
theorem holds_append (cs ds : List Char) : holds [a, b] (cs ++ ds) =
    (holds [a, b] cs || holds [a, b] ds || (cs.getLast? == some a && ds.head? == some b)) := by
  have hnil : holds [a, b] [] = false := by simp [holds, through?]
  induction cs with
  | nil => simp [hnil]
  | cons c cs ih =>
    rw [List.cons_append, holds_cons, holds_cons, ih]
    cases cs with
    | nil => cases ds <;> simp [List.isPrefixOf, hnil, Bool.or_comm, Bool.beq_comm]
    | cons d cs => simp [List.isPrefixOf, Bool.or_assoc]

/-- A mark of two characters does not reach over a third one. -/
theorem holds_append_cons {c : Char} (ha : c ≠ a) (hb : c ≠ b) (ds : List Char) :
    holds [a, b] (cs ++ c :: ds) = (holds [a, b] cs || holds [a, b] ds) := by
  have hac : (a == c) = false := beq_eq_false_iff_ne.mpr ha.symm
  have hcb : (c == b) = false := beq_eq_false_iff_ne.mpr hb
  rw [holds_append, holds_cons]
  simp [List.isPrefixOf, hac, hcb]

/-- The mark behind a text is found at its end. -/
theorem through?_append_mark (h : holds [a, b] cs = false) (hlast : cs.getLast? ≠ some a) :
    through? [a, b] (cs ++ [a, b]) = some (cs.length + 2) := by
  induction cs with
  | nil => simp [through?]
  | cons c cs ih =>
    rw [holds_cons, Bool.or_eq_false_iff] at h
    have hnot : ¬ [a, b].isPrefixOf (c :: (cs ++ [a, b])) := by
      cases cs with
      | nil =>
        have : ¬ a = c := by simpa [eq_comm] using hlast
        simp [List.isPrefixOf, this]
      | cons d ds => simpa [List.isPrefixOf] using h.1
    have hlast' : cs.getLast? ≠ some a := by
      cases cs with
      | nil => simp
      | cons d ds => simpa using hlast
    rw [List.cons_append, through?, if_neg hnot, ih h.2 hlast']
    rfl

end

end RequestLang.Text

/-! Which texts are read as numbers. -/
namespace RequestLang.Text

/-- A decimal spelling of a number that fits a word. A plus sign and leading zeros change nothing. -/
def Spells (cs : List Char) (n : Nat) : Prop :=
  ∃ ds, (cs = ds ∨ cs = '+' :: ds) ∧ ds ≠ [] ∧ (∀ c ∈ ds, c.isDigit) ∧ Nat.ofDigitChars 10 ds 0 = n ∧ n < wordEnd

theorem natural?_eq_some_iff {cs : List Char} {n : Nat} : natural? cs = some n ↔ Spells cs n := by
  have hread (ds : List Char) : (if ds.isEmpty || !ds.all Char.isDigit then none
      else if Nat.ofDigitChars 10 ds 0 < wordEnd then some (Nat.ofDigitChars 10 ds 0) else none) = some n ↔
      ds ≠ [] ∧ (∀ c ∈ ds, c.isDigit) ∧ Nat.ofDigitChars 10 ds 0 = n ∧ n < wordEnd := by
    by_cases hds : ds.isEmpty || !ds.all Char.isDigit
    · have hnot : ¬(ds ≠ [] ∧ ∀ c ∈ ds, c.isDigit) := by simpa [or_iff_not_imp_left] using hds
      rw [if_pos hds]
      exact ⟨nofun, fun h => absurd ⟨h.1, h.2.1⟩ hnot⟩
    · have hdigits : ds ≠ [] ∧ ∀ c ∈ ds, c.isDigit := by simpa using hds
      rw [if_neg hds]
      by_cases hfits : Nat.ofDigitChars 10 ds 0 < wordEnd
      · rw [if_pos hfits, Option.some_inj]
        exact ⟨fun h => ⟨hdigits.1, hdigits.2, h, h ▸ hfits⟩, fun h => h.2.2.1⟩
      · rw [if_neg hfits]
        exact ⟨nofun, fun h => absurd (h.2.2.1 ▸ h.2.2.2) hfits⟩
  have hplus : ¬('+' : Char).isDigit := by decide
  unfold natural?
  simp only [← Nat.ofDigitChars_eq_foldl]
  split
  · rename_i rest
    rw [hread]
    constructor
    · exact fun h => ⟨rest, .inr rfl, h⟩
    · rintro ⟨ds, rfl | hds, h⟩
      · exact absurd (h.2.1 '+' List.mem_cons_self) hplus
      · cases hds
        exact h
  · rename_i hsign
    rw [hread]
    constructor
    · exact fun h => ⟨cs, .inl rfl, h⟩
    · rintro ⟨ds, rfl | rfl, h⟩
      · exact h
      · exact absurd rfl (hsign ds)

end RequestLang.Text

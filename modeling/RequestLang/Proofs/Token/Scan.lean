import RequestLang.Proofs.Steps
import RequestLang.Proofs.Token.Shape

/-! Taking the lexer's result apart again. -/
namespace RequestLang
open Lexer

namespace Lexer

variable {cs : List Char} {n : Nat}

/-- The length of a piece at the head of a text. -/
def Within (n : Nat) (cs : List Char) : Prop := 0 < n ∧ n ≤ cs.length

theorem within_headed {first p : Char → Bool} (h : headed? first p cs = some n) : Within n cs := by
  unfold headed? at h
  split at h
  · split at h
    · cases h
      exact ⟨by omega, Nat.succ_le_succ (run_le_length _ _)⟩
    · cases h
  · cases h

theorem within_map {f : List Char → Option Nat} {c : Char} (hf : ∀ n, f cs = some n → Within n cs)
    (h : (f cs).map (· + 1) = some n) : Within n (c :: cs) := by
  obtain ⟨m, hm, rfl⟩ := Option.map_eq_some_iff.mp h
  obtain ⟨-, hle⟩ := hf m hm
  exact ⟨by omega, Nat.succ_le_succ hle⟩

theorem within_newline (h : newline? cs = some n) : Within n cs := by
  unfold newline? at h
  split at h
  · cases h
    simp [Within]
  · split at h
    · cases h
      simp [Within]
    · cases h
  · cases h

theorem within_lineComment {opening : List Char} (hne : opening ≠ []) (hn : '\n' ∉ opening)
    (h : lineComment? opening cs = some n) : Within n cs := by
  unfold lineComment? at h
  split at h
  · rename_i hp
    cases h
    obtain ⟨rest, rfl⟩ := List.isPrefixOf_iff_prefix.mp hp
    cases opening with
    | nil => exact absurd rfl hne
    | cons c opening =>
      have hc : (c != '\n') = true := by
        rw [bne_iff_ne]
        rintro rfl
        simp at hn
      exact ⟨by simp [run, hc], run_le_length _ _⟩
  · cases h

theorem within_fenced {opening closing : List Char} (hne : opening ≠ [])
    (h : fenced? opening closing cs = some n) : Within n cs := by
  unfold fenced? at h
  split at h
  · rename_i hp
    obtain ⟨rest, rfl⟩ := List.isPrefixOf_iff_prefix.mp hp
    obtain ⟨m, hm, rfl⟩ := Option.map_eq_some_iff.mp h
    rw [List.drop_left] at hm
    have := (Text.length_le_of_through? hm).2
    have : 0 < opening.length := List.length_pos_iff.mpr hne
    exact ⟨by omega, by rw [List.length_append]; omega⟩
  · cases h

theorem within_closing {quote : Char} (h : closing? quote cs = some n) : Within n cs := by
  induction cs using closing?.induct quote generalizing n with
  | case1 => simp [closing?] at h
  | case2 => simp [closing?] at h
  | case3 cs => simp [closing?] at h
  | case4 c cs hc ih =>
    rw [closing?, if_neg hc] at h
    obtain ⟨m, hm, rfl⟩ := Option.map_eq_some_iff.mp h
    obtain ⟨-, hle⟩ := ih hm
    exact ⟨by omega, by simp only [List.length_cons]; omega⟩
  | case5 cs hne hbackslash =>
    rw [closing?.eq_4 _ _ _ hne hbackslash, if_pos rfl] at h
    cases h
    simp [Within]
  | case6 cs hne hbackslash hq =>
    rw [closing?.eq_4 _ _ _ hne hbackslash, if_neg hq, if_pos rfl] at h
    cases h
  | case7 c cs hne hbackslash hq hn ih =>
    rw [closing?.eq_4 _ _ _ hne hbackslash, if_neg hq, if_neg hn] at h
    exact within_map (fun m hm => ih hm) h

/-- What goes on to the closing quote ends in it. -/
theorem take_of_closing? {quote : Char} (h : closing? quote cs = some n) : ∃ body, cs.take n = body ++ [quote] := by
  induction cs using closing?.induct quote generalizing n with
  | case1 => simp [closing?] at h
  | case2 => simp [closing?] at h
  | case3 cs => simp [closing?] at h
  | case4 c cs hc ih =>
    rw [closing?, if_neg hc] at h
    obtain ⟨m, hm, rfl⟩ := Option.map_eq_some_iff.mp h
    obtain ⟨body, hbody⟩ := ih hm
    exact ⟨'\\' :: c :: body, by simp [hbody]⟩
  | case5 cs hne hbackslash =>
    rw [closing?.eq_4 _ _ _ hne hbackslash, if_pos rfl] at h
    cases h
    exact ⟨[], rfl⟩
  | case6 cs hne hbackslash hq =>
    rw [closing?.eq_4 _ _ _ hne hbackslash, if_neg hq, if_pos rfl] at h
    cases h
  | case7 c cs hne hbackslash hq hn ih =>
    rw [closing?.eq_4 _ _ _ hne hbackslash, if_neg hq, if_neg hn] at h
    obtain ⟨m, hm, rfl⟩ := Option.map_eq_some_iff.mp h
    obtain ⟨body, hbody⟩ := ih hm
    exact ⟨c :: body, by simp [hbody]⟩

theorem within_quoted {quote : Char} (h : quoted? quote cs = some n) : Within n cs := by
  unfold quoted? at h
  split at h
  · split at h
    · exact within_map (fun m hm => within_closing hm) h
    · cases h
  · cases h

theorem within_keyword (h : keywordLength? cs = some n) : Within n cs := by
  obtain ⟨w, hw, h⟩ := List.exists_of_findSome?_eq_some h
  have hpos : 0 < w.length := by
    have : ∀ w ∈ keywords, 0 < w.length := by decide
    exact this w hw
  split at h
  · rename_i hp
    have hle := (List.isPrefixOf_iff_prefix.mp hp).length_le
    split at h
    · split at h
      · cases h
      · cases h
        exact ⟨hpos, hle⟩
    · cases h
      exact ⟨hpos, hle⟩
  · cases h

theorem exponentLength_le (cs : List Char) : exponentLength cs ≤ cs.length := by
  unfold exponentLength
  split
  · rename_i e ds
    split
    · split
      · rename_i s ds'
        have h₁ := run_le_length Char.isDigit ds'
        have h₂ := run_le_length Char.isDigit (s :: ds')
        simp only [List.length_cons] at h₂ ⊢
        split
        · split <;> omega
        · split <;> omega
      · omega
    · omega
  · omega

theorem within_number {c : Char} (hc : c.isDigit) : Within (numberLength (c :: cs)) (c :: cs) := by
  have hpos : 0 < run Char.isDigit (c :: cs) := by simp [run, hc]
  have hwhole := run_le_length Char.isDigit (c :: cs)
  have hfraction := fractionLength_le ((c :: cs).drop (run Char.isDigit (c :: cs)))
  have hexponent := exponentLength_le (((c :: cs).drop (run Char.isDigit (c :: cs))).drop
    (fractionLength ((c :: cs).drop (run Char.isDigit (c :: cs)))))
  rw [numberLength_eq]
  simp only [List.length_drop] at hfraction hexponent
  exact ⟨by omega, by omega⟩

theorem within_lexeme {kind : TokenKind} (h : lexeme? cs = some (kind, n)) : Within n cs := by
  obtain ⟨length?, hmem, hlen⟩ := classes_of_lexeme? h
  simp only [classes, List.mem_cons, Prod.mk.injEq, List.not_mem_nil, or_false] at hmem
  rcases hmem with ⟨-, rfl⟩ | ⟨-, rfl⟩ | ⟨-, rfl⟩ | ⟨-, rfl⟩ | ⟨-, rfl⟩ | ⟨-, rfl⟩ | ⟨-, rfl⟩ |
    ⟨-, rfl⟩ | ⟨-, rfl⟩ | ⟨-, rfl⟩ | ⟨-, rfl⟩ | ⟨-, rfl⟩ | ⟨-, rfl⟩ | ⟨-, rfl⟩ | ⟨-, rfl⟩ |
    ⟨-, rfl⟩ | ⟨-, rfl⟩
  · exact within_newline hlen
  · exact within_headed hlen
  · exact within_lineComment (by decide) (by decide) hlen
  · exact within_lineComment (by decide) (by decide) hlen
  · exact within_fenced (by decide) hlen
  · exact within_fenced (by decide) hlen
  · exact within_fenced (by decide) hlen
  · exact within_fenced (by decide) hlen
  · exact within_fenced (by decide) hlen
  · exact within_quoted hlen
  · exact within_quoted hlen
  · unfold tag? at hlen
    split at hlen
    · exact within_map (fun m hm => within_headed hm) hlen
    · cases hlen
  · exact within_keyword hlen
  · cases cs with
    | nil => simp at hlen
    | cons c cs =>
      by_cases hc : c.isDigit
      · obtain rfl : numberLength (c :: cs) = n := by simpa [hc] using hlen
        exact within_number hc
      · simp [hc] at hlen
  · unfold identifier? at hlen
    split at hlen
    · exact within_map (fun m hm => within_headed hm) hlen
    · exact within_headed hlen
  · obtain ⟨o, ho, rfl⟩ := Option.map_eq_some_iff.mp hlen
    have hp : o.isPrefixOf cs := by
      have := List.find?_some ho
      exact this
    have hpos : 0 < o.length := by
      have : ∀ o ∈ operators, 0 < o.length := by decide
      exact this o (List.mem_of_find?_eq_some ho)
    exact ⟨hpos, (List.isPrefixOf_iff_prefix.mp hp).length_le⟩
  · exact within_headed hlen

/-- A character that begins no lexeme. -/
def Stray (l : Lexeme) (rest : List Char) : Prop :=
  l.kind = .punctuation ∧ ∃ c, l.text.toList = [c] ∧ lexeme? (c :: rest) = none

/-- The tokens of a text: the first one is cut off, or it is a stray character. -/
theorem scan_eq_cons {k : Nat} {t : Token} {ts : List Token} (h : scan k cs = .ok (t :: ts)) :
    ∃ rest, t.start = k ∧ cs = t.text.toList ++ rest ∧ scan (k + Text.byteSize t.text.toList) rest = .ok ts ∧
      (Lexeme.Cuts t.lexeme rest ∨ Stray t.lexeme rest) := by
  cases cs with
  | nil =>
    rw [scan] at h
    cases h
  | cons c cs =>
    rw [scan] at h
    split at h
    · cases h
    rename_i hclosed
    split at h
    · rename_i kind n hlex
      obtain ⟨hpos, hle⟩ := within_lexeme hlex
      obtain ⟨ts', hts, he⟩ := map_eq_ok.mp h
      obtain ⟨rfl, rfl⟩ := List.cons.inj he
      have htake : c :: cs.take (n - 1) = (c :: cs).take n := by
        obtain ⟨m, rfl⟩ := Nat.exists_eq_succ_of_ne_zero (Nat.ne_of_gt hpos)
        rfl
      have hwhole : c :: cs = c :: cs.take (n - 1) ++ cs.drop (n - 1) := by simp
      have hlen : (c :: cs.take (n - 1)).length = n := by
        rw [htake, List.length_take]
        omega
      refine ⟨cs.drop (n - 1), rfl, by simp, by simpa using hts, .inl ⟨by simp [Token.lexeme], ?_, ?_⟩⟩
      · simpa [Token.lexeme] using hclosed
      · simp only [Token.lexeme, String.toList_ofList, hlen]
        rw [← hwhole, hlex]
    · rename_i hlex
      split at h
      · cases h
      · obtain ⟨ts', hts, he⟩ := map_eq_ok.mp h
        obtain ⟨rfl, rfl⟩ := List.cons.inj he
        exact ⟨cs, rfl, by simp, by simpa using hts, .inr ⟨rfl, c, by simp [Token.lexeme], hlex⟩⟩

theorem scan_eq_nil {k : Nat} (h : scan k cs = .ok []) : cs = [] := by
  cases cs with
  | nil => rfl
  | cons c cs =>
    rw [scan] at h
    split at h
    · cases h
    split at h
    · obtain ⟨ts, -, he⟩ := map_eq_ok.mp h
      cases he
    · split at h
      · cases h
      · obtain ⟨ts, -, he⟩ := map_eq_ok.mp h
        cases he

/-- The texts of the tokens make up the text. -/
theorem flatMap_of_scan {k : Nat} {ts : List Token} (h : scan k cs = .ok ts) :
    ts.flatMap (·.text.toList) = cs := by
  induction ts generalizing k cs with
  | nil => rw [scan_eq_nil h, List.flatMap_nil]
  | cons t ts ih =>
    obtain ⟨rest, -, rfl, hrest, -⟩ := scan_eq_cons h
    rw [List.flatMap_cons, ih hrest]

end Lexer
end RequestLang

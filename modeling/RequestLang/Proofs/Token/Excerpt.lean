import RequestLang.Proofs.Token.Place

/-! Excerpts of a text. Where quotes, placeholders, gaps and a few marks end does not depend on what
is cut off behind them. -/
namespace RequestLang
open Lexer

namespace Lexer

theorem closing?_cons {q c : Char} (hc : c ≠ '\\') (cs : List Char) : closing? q (c :: cs) =
    if c = q then some 1 else if c = '\n' then none else (closing? q cs).map (· + 1) :=
  closing?.eq_4 _ _ _ (fun h _ => hc h) fun _ _ h _ => hc h

theorem closing?_excerpt {q : Char} {cs : List Char} (tail : List Char) {tail' : List Char}
    (h : closing? q (cs ++ tail') = some cs.length) : closing? q (cs ++ tail) = some cs.length := by
  induction cs using closing?.induct q with
  | case1 => exact absurd (within_closing h).1 (by simp)
  | case2 =>
    cases tail' with
    | nil => simp [closing?] at h
    | cons c cs =>
      rw [List.cons_append, List.nil_append, closing?] at h
      split at h
      · cases h
      · simp at h
  | case3 cs => simp [closing?] at h
  | case4 c cs hc ih =>
    simp only [List.cons_append, closing?, if_neg hc] at h ⊢
    rw [ih (by simpa using h)]
    rfl
  | case5 cs hempty hescape =>
    have hq : q ≠ '\\' := by
      intro hq
      cases cs with
      | nil => exact hempty hq rfl
      | cons d ds => exact hescape d ds hq rfl
    rw [List.cons_append, closing?_cons hq, if_pos rfl] at h ⊢
    exact h
  | case6 cs hempty hescape hq =>
    have hc : '\n' ≠ '\\' := by decide
    rw [List.cons_append, closing?_cons hc, if_neg hq, if_pos rfl] at h
    cases h
  | case7 c cs hempty hescape hq hn ih =>
    have hc : c ≠ '\\' := by
      intro hc
      cases cs with
      | nil => exact hempty hc rfl
      | cons d ds => exact hescape d ds hc rfl
    rw [List.cons_append, closing?_cons hc, if_neg hq, if_neg hn] at h ⊢
    rw [ih (by simpa using h)]
    rfl

theorem fenced?_of_ne {c o : Char} (h : o ≠ c) (opening closing cs : List Char) :
    fenced? (o :: opening) closing (c :: cs) = none := by
  simp [fenced?, h]

/-- What is not fenced is not fenced either in front of less. -/
theorem fenced?_excerpt {opening closing cs tail : List Char} (h : fenced? opening closing (cs ++ tail) = none) :
    fenced? opening closing cs = none := by
  unfold fenced? at h ⊢
  split
  · rename_i hp
    obtain ⟨rest, rfl⟩ := List.isPrefixOf_iff_prefix.mp hp
    rw [List.append_assoc, if_pos (List.isPrefixOf_iff_prefix.mpr (List.prefix_append ..)), List.drop_left,
      Option.map_eq_none_iff] at h
    rw [List.drop_left, Option.map_eq_none_iff]
    cases hrest : Text.through? closing rest with
    | none => rfl
    | some n => rw [Text.through?_append hrest] at h; cases h
  · rfl

theorem stops_excerpt {p : Char → Bool} {rest tail : List Char} (h : Stops p (rest ++ tail)) : Stops p rest := by
  cases rest with
  | nil => exact stops_nil p
  | cons c cs => exact h

section
attribute [local simp] lexeme? classes newline? headed? lineComment? quoted? isGap List.isPrefixOf List.findSome?
  tag? keywordLength? keywords identifier? operators Text.isNameStart Char.isAlpha Char.isUpper Char.isLower
  Char.isDigit fenced?_of_ne

/-- Where a quote stands, there is a text between quotes or nothing. -/
theorem lexeme?_quote {q : Char} (hq : q = '"' ∨ q = '\'') (cs : List Char) : lexeme? (q :: cs) =
    ((fenced? [q, q, q] [q, q, q] (q :: cs)).map (TokenKind.tripleString, ·)).or
      ((closing? q cs).map fun n => (.string, n + 1)) := by
  rcases hq with rfl | rfl
  · cases hfence : fenced? ['"', '"', '"'] ['"', '"', '"'] ('"' :: cs) <;>
      cases hclose : closing? '"' cs <;> simp [hfence, hclose]
  · cases hfence : fenced? ['\'', '\'', '\''] ['\'', '\'', '\''] ('\'' :: cs) <;>
      cases hclose : closing? '\'' cs <;> simp [hfence, hclose]

end
end Lexer

namespace Lexeme
variable {l : Lexeme} {rest tail : List Char}

/-- Where such a lexeme ends does not depend on what is cut off further behind. -/
def IsFirm (l : Lexeme) : Prop :=
  l.kind ∈ [.string, .tripleString, .placeholder, .whitespace, .newline, .comment] ∨
    l ∈ [mark ":", op "=", op "?"]

theorem cuts_of_mem_marks (h : l ∈ [mark ":", op "=", op "?"]) (rest : List Char) : Cuts l rest := by
  simp only [List.mem_cons, List.not_mem_nil, or_false] at h
  rcases h with rfl | rfl | rfl
  · exact cuts_mark (by decide) rest
  · exact cuts_op (by decide) rest
  · exact cuts_op (by decide) rest

/-- A string ends in the quote that opens it. -/
theorem Cuts.string_closed (h : Cuts l rest) (hl : l.kind = .string) :
    ∃ q body, (q = '"' ∨ q = '\'') ∧ l.text.toList = [q] ++ (body ++ [q]) := by
  obtain ⟨q, cs, hq, htext⟩ := h.string hl
  have hlex := h.lexeme
  rw [htext, List.cons_append, lexeme?_quote hq, hl] at hlex
  cases hfence : fenced? [q, q, q] [q, q, q] (q :: (cs ++ rest)) with
  | some n => simp [hfence] at hlex
  | none =>
    have hclose : closing? q (cs ++ rest) = some cs.length := by simpa [hfence] using hlex
    obtain ⟨body, hbody⟩ := take_of_closing? hclose
    rw [List.take_left] at hbody
    exact ⟨q, body, hq, by rw [htext, hbody, List.singleton_append]⟩

theorem Cuts.string_excerpt (h : Cuts l (rest ++ tail)) (hl : l.kind = .string) : Cuts l rest := by
  obtain ⟨q, cs, hq, htext⟩ := h.string hl
  have hlex := h.lexeme
  rw [htext, List.cons_append, lexeme?_quote hq, hl] at hlex
  cases hfence : fenced? [q, q, q] [q, q, q] (q :: (cs ++ (rest ++ tail))) with
  | some n => simp [hfence] at hlex
  | none =>
    have hclose : closing? q (cs ++ (rest ++ tail)) = some cs.length := by simpa [hfence] using hlex
    have hfence' : fenced? [q, q, q] [q, q, q] (q :: (cs ++ rest)) = none :=
      fenced?_excerpt (show fenced? [q, q, q] [q, q, q] (q :: (cs ++ rest) ++ tail) = none by simpa using hfence)
    refine ⟨h.nonempty, ?_, ?_⟩
    · rcases hq with rfl | rfl <;> simp [htext]
    · rw [htext, List.cons_append, lexeme?_quote hq, hfence', closing?_excerpt rest hclose, hl]
      rfl

theorem Cuts.excerpt (h : Cuts l (rest ++ tail)) (hfirm : l.IsFirm) (hcr : '\r' ∉ l.text.toList) : Cuts l rest := by
  obtain ⟨kind, text⟩ := l
  rcases hfirm with hkind | hmark
  · simp only [List.mem_cons, List.not_mem_nil, or_false] at hkind
    rcases hkind with rfl | rfl | rfl | rfl | rfl | rfl
    · exact h.string_excerpt rfl
    · obtain ⟨q, body, hq, htext, hbody⟩ := h.tripleString rfl
      exact cuts_triple hq htext hbody rest
    · obtain ⟨body, htext, hbody⟩ := h.placeholder rfl
      exact cuts_placeholder htext hbody rest
    · obtain ⟨hall, hstop⟩ := h.whitespace rfl
      exact cuts_gap h.nonempty hall (stops_excerpt hstop)
    · have htext : text = "\n" := String.toList_inj.mp (h.newline rfl hcr)
      exact htext ▸ cuts_lineEnd rest
    · obtain ⟨body, htext, hbody, hstop⟩ | ⟨body, htext, hbody⟩ := h.comment rfl
      · exact cuts_lineComment htext hbody (stops_excerpt hstop)
      · exact cuts_blockComment htext hbody rest
  · exact cuts_of_mem_marks hmark rest

end Lexeme

open Lexeme

/-- Firm tokens in the middle of a text are cut in the same way when they stand alone. -/
theorem Scanned.falls_excerpt {run after : List Token} (h : Scanned (run ++ after))
    (hfirm : ∀ t ∈ run, t.lexeme.IsFirm) : Falls (run.map Token.lexeme) [] := by
  induction run with
  | nil => exact falls_nil []
  | cons t run ih =>
    rw [List.cons_append] at h
    obtain ⟨hcut, hcr, hrest⟩ := h.cons
    have hfirst : t.lexeme.IsFirm := hfirm t List.mem_cons_self
    refine (falls_cons ..).mpr ⟨?_, ih hrest fun u hu => hfirm u (List.mem_cons_of_mem _ hu)⟩
    rw [List.append_nil]
    rcases hcut with hcut | ⟨hkind, -⟩
    · rw [textOf_append] at hcut
      exact hcut.excerpt hfirst hcr
    · exact cuts_of_mem_marks (hfirst.resolve_left (by simp [hkind])) _

theorem scan_excerpt {run after : List Token} (h : Scanned (run ++ after)) (hfirm : ∀ t ∈ run, t.lexeme.IsFirm) :
    scan 0 (textOf run) = .ok (lay 0 (run.map Token.lexeme)) := by
  have hscan := scan_falls (h.falls_excerpt hfirm) 0
  rw [List.append_nil] at hscan
  rw [textOf, hscan, scan]
  simp [Except.map]

end RequestLang

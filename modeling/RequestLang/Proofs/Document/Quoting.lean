import RequestLang.Proofs.Document.Read.Token
import RequestLang.Proofs.Document.Reread.Term
import RequestLang.Proofs.Token.Place
import RequestLang.Proofs.Token.Tiling

/-! Quoting loses nothing. Whatever a text holds, its quoted form is cut off as one token before anything that does
not begin with a quote, and the token means the text again. What was read between triple quotes goes between triple
quotes, of the same or of the other kind: the ones that enclosed a text do not occur in it, and it does not end in
one of their characters. -/
namespace RequestLang
open Lexer Lexeme

def isQuoteMark (c : Char) : Bool := c == '"' || c == '\''

theorem takes_quoteText (v : String) {rest : List Char} (h : Stops isQuoteMark rest) (k : Nat) :
    Takes ⟨.string, quoteText v, k⟩ rest := by
  have hstops : Stops (· == '"') rest := fun c hc => by
    have := h c hc
    rw [isQuoteMark, Bool.or_eq_false_iff] at this
    exact this.1
  exact .inl (cuts_quoted v hstops)

namespace Literal

/-- What one kind of triple quotes has enclosed, one of the two kinds can enclose. -/
theorem kind_lexeme_of_isOf {t : Token} {s : String} (h : t.IsOf s) (ht : t.kind = .tripleString) :
    t.literal.lexeme.kind = .tripleString := by
  obtain ⟨ts, hts, hmem⟩ := h
  obtain ⟨rest, hcut | hstray⟩ := cut_of_scan hts hmem
  · obtain ⟨q, value, hq, hfence, -, hliteral⟩ := fenced_of_cuts hcut ht
    have hfences : canFence '"' value ∨ canFence '\'' value := by
      rcases hq with rfl | rfl
      · exact .inl hfence
      · exact .inr hfence
    rw [hliteral, lexeme, if_pos ⟨rfl, by rwa [String.toList_ofList]⟩]
  · cases ht.symm.trans hstray.1

theorem takes_written {l : Literal} (h : l.lexeme.kind = .tripleString) (rest : List Char) (k : Nat) :
    Takes ⟨.tripleString, l.written, k⟩ rest ∧ (⟨.tripleString, l.written, k⟩ : Token).literal = l := by
  rcases l.cases_written with ⟨q, hq, hfence, ht, hwritten, -⟩ | ⟨-, hl⟩
  · have hclosed : Text.through? [q, q, q] (l.value.toList ++ [q, q, q]) =
        some (l.value.toList ++ [q, q, q]).length := by simpa using through?_fence hfence
    exact ⟨.inl (cuts_triple hq hwritten hclosed rest), literal_fenced ht hwritten k⟩
  · rw [hl] at h
    cases h

end Literal

/-- Quoting is lossless wherever it stands. Before any text that does not begin with a quote, whether or not that text
has tokens itself, the quoted form of a text is the first token, and it means the text. A literal that was read
between triple quotes is one token between triple quotes before any text at all, and it is the literal again. -/
theorem quoting_lossless :
    (∀ (v : String) (rest : List Char) (k : Nat), Stops isQuoteMark rest →
      ∃ t : Token, t = ⟨.string, quoteText v, k⟩ ∧ Takes t rest ∧
        scan k ((quoteText v).toList ++ rest) = (scan t.stop rest).map (t :: ·) ∧ t.literal.value = v) ∧
    ∀ (s : String) (t : Token), t.IsOf s → t.kind = .tripleString → ∀ (rest : List Char) (k : Nat),
      ∃ u : Token, u = ⟨.tripleString, t.literal.written, k⟩ ∧ Takes u rest ∧
        scan k (t.literal.written.toList ++ rest) = (scan u.stop rest).map (u :: ·) ∧ u.literal = t.literal := by
  constructor
  · intro v rest k hrest
    have htakes := takes_quoteText v hrest k
    exact ⟨_, rfl, htakes, scan_takes htakes, literal_quoted v k⟩
  · intro s t hs ht rest k
    obtain ⟨htakes, hliteral⟩ := Literal.takes_written (Literal.kind_lexeme_of_isOf hs ht) rest k
    exact ⟨_, rfl, htakes, scan_takes htakes, hliteral⟩

/-- A text with both quotes, a backslash and a line end, before an operand; and a text in apostrophes that holds
three quotes and ends in one, so that only apostrophes can enclose it again. -/
theorem quoting_lossless_mixed :
    (∃ t : Token, t = ⟨.string, "'it\\'s \"\\\\\\n'", 3⟩ ∧ Takes t [' ', 'x'] ∧
      scan 3 ("'it\\'s \"\\\\\\n'".toList ++ [' ', 'x']) = (scan t.stop [' ', 'x']).map (t :: ·) ∧
      t.literal.value = "it's \"\\\n") ∧
    ∃ u : Token, u = ⟨.tripleString, "'''a\"\"\"b\"'''", 0⟩ ∧ Takes u ['\''] ∧
      scan 0 ("'''a\"\"\"b\"'''".toList ++ ['\'']) = (scan u.stop ['\'']).map (u :: ·) ∧
      u.literal = ⟨"a\"\"\"b\"", .triple⟩ := by
  have htoken : tokenize "'''a\"\"\"b\"'''" = .ok [⟨.tripleString, "'''a\"\"\"b\"'''", 0⟩] := by cbv
  have hquote : quoteText "it's \"\\\n" = "'it\\'s \"\\\\\\n'" := by decide +kernel
  have hliteral : (⟨.tripleString, "'''a\"\"\"b\"'''", 0⟩ : Token).literal = ⟨"a\"\"\"b\"", .triple⟩ := by decide +kernel
  have hwritten : (⟨"a\"\"\"b\"", .triple⟩ : Literal).written = "'''a\"\"\"b\"'''" := by decide +kernel
  have htriple := quoting_lossless.2 _ _ ⟨_, htoken, List.mem_singleton.mpr rfl⟩ rfl ['\''] 0
  rw [hliteral, hwritten] at htriple
  have hstring := quoting_lossless.1 "it's \"\\\n" [' ', 'x'] 3 ((stops_cons ..).mpr rfl)
  rw [hquote] at hstring
  exact ⟨hstring, htriple⟩

/-- Behind a quoted form the text can break off, and then there is no token at all. -/
theorem not_quoting_unclosed : ¬∀ (v : String) (rest : List Char), Stops isQuoteMark rest →
    ∃ ts, tokenize (quoteText v ++ String.ofList rest) = .ok (⟨.string, quoteText v, 0⟩ :: ts) := by
  intro h
  obtain ⟨ts, hts⟩ := h "v" [' ', '"'] ((stops_cons ..).mpr rfl)
  have hfault : tokenize (quoteText "v" ++ String.ofList [' ', '"']) = .error ⟨.unclosedString, 4, 5⟩ := by cbv
  rw [hfault] at hts
  cases hts

end RequestLang

import RequestLang.Proofs.Document.Solid
import RequestLang.Proofs.Token.Scanned

/-! Literals, operands and closing marks among the tokens of a text. -/
namespace RequestLang
open Lexer Lexeme Cursor

/-- What stands before the first occurrence of a triple quote can be fenced by it. -/
theorem canFence_of_through? {q : Char} {cs : List Char}
    (h : Text.through? [q, q, q] (cs ++ [q, q, q]) = some (cs.length + 3)) : canFence q cs := by
  simp only [canFence, Bool.and_eq_true, Bool.not_eq_true', bne_iff_ne]
  constructor
  · rw [← Bool.not_eq_true, Text.holds_iff_infix (by simp)]
    rintro ⟨before, after, rfl⟩
    obtain ⟨n, hn, hle⟩ := Text.through?_le [q, q, q] before (after ++ [q, q, q])
    rw [← List.append_assoc, h] at hn
    simp only [Option.some.injEq, List.length_append, List.length_cons, List.length_nil] at hn hle
    omega
  · intro hlast
    obtain ⟨before, rfl⟩ := List.getLast?_eq_some_iff.mp hlast
    obtain ⟨n, hn, hle⟩ := Text.through?_le [q, q, q] before [q]
    have : before ++ [q, q, q] ++ [q] = before ++ [q] ++ [q, q, q] := by simp
    rw [this, h] at hn
    simp only [Option.some.injEq, List.length_append, List.length_cons, List.length_nil] at hn hle
    omega

/-- A token between triple quotes writes what stands between them, which can be fenced again. -/
theorem fenced_of_cuts {t : Token} {rest : List Char} (h : Cuts t.lexeme rest) (ht : t.kind = .tripleString) :
    ∃ q value, (q = '"' ∨ q = '\'') ∧ canFence q value ∧ t.text.toList = [q, q, q] ++ (value ++ [q, q, q]) ∧
      t.literal = ⟨String.ofList value, .triple⟩ := by
  obtain ⟨q, body, hquote, htext, hbody⟩ := h.tripleString ht
  obtain ⟨value, rfl⟩ := Text.append_mark_of_through? hbody
  have htoken : t.text.toList = [q, q, q] ++ (value ++ [q, q, q]) := htext
  have hlen : 6 ≤ t.text.toList.length := by
    rw [htoken]
    simp only [List.length_append, List.length_cons, List.length_nil]
    omega
  have hinner : Text.Quoted.inner 3 t.text.toList = value := by
    rw [htoken]
    simp [Text.Quoted.inner]
  rw [List.length_append] at hbody
  exact ⟨q, value, hquote, canFence_of_through? hbody, htoken, by rw [Token.literal, if_pos ⟨ht, hlen⟩, hinner]⟩

theorem legible_literal {t : Token} {ts : List Token} (h : Scanned (t :: ts)) : t.literal.Legible := by
  intro hq
  have ht : t.kind = .tripleString := by
    simp only [Token.literal] at hq
    split at hq
    · rename_i ht
      exact ht.1
    · split at hq <;> cases hq
  obtain ⟨q, value, hquote, hfence, htoken, hliteral⟩ := fenced_of_cuts (h.cuts (by simp [ht])) ht
  rw [hliteral, String.toList_ofList]
  constructor
  · rcases hquote with rfl | rfl
    · exact .inl hfence
    · exact .inr hfence
  · intro hr
    refine h.cons.2.1 ?_
    rw [htoken]
    simp [hr]

theorem isOperand_number {t : Token} {ts : List Token} (h : Scanned (t :: ts)) (ht : t.kind = .number) :
    IsOperand .number t.text := by
  obtain ⟨c, cs, htext, hc, hn⟩ := (h.cuts (by simp [ht])).number ht
  exact ⟨.inl rfl, cuts_number htext hc hn (stops_nil _), h.cons.2.1⟩

theorem isOperand_placeholder {t : Token} {ts : List Token} (h : Scanned (t :: ts))
    (ht : t.kind = .placeholder) : IsOperand .placeholder t.text := by
  obtain ⟨body, htext, hb⟩ := (h.cuts (by simp [ht])).placeholder ht
  exact ⟨.inr (.inr rfl), cuts_placeholder htext hb [], h.cons.2.1⟩

/-- A name is one in other places as well, unless a character outside the alphabet holds it apart. -/
theorem isOperand_identifier {t : Token} {ts : List Token} (h : Scanned (t :: ts)) (ht : t.kind = .identifier)
    (hstop : Stops Text.isWord (textOf ts)) : IsOperand .identifier t.text := by
  have hcut := h.cuts (by simp [ht])
  refine ⟨.inr (.inl rfl), ?_, h.cons.2.1⟩
  obtain ⟨name, htext | htext, hname, -⟩ := hcut.identifier ht
  · obtain rfl : t.text = name := htext
    exact cuts_word hname (not_keyword_of_cuts hcut ht hstop) (stops_nil _)
  · rw [show t.text = "$" ++ name from htext]
    exact cuts_dollarWord hname (stops_nil _)

namespace Cursor

/-- The marks behind a term. -/
def closingMarks : List String := [",", "\x7d", "]", ")", ";"]

/-- The next token that means something is a mark that closes terms. -/
def Closes (ts : List Token) : Prop :=
  ∃ t m, ts.find? (!·.isIgnorable) = some t ∧ t.isPunct m ∧ m ∈ closingMarks

theorem closes_of_isPunct {c : Cursor} {m : String} (h : c.skip.isPunct m) (hm : m ∈ closingMarks) :
    Closes c.ahead := by
  rw [isPunct, skip_token?] at h
  cases ht : c.ahead.find? (!·.isIgnorable) with
  | none => simp [ht] at h
  | some t => exact ⟨t, m, ht, by simpa [ht] using h, hm⟩

theorem Closes.stops {ts : List Token} (h : Closes ts) (hts : Scanned ts) :
    Stops extendsOperand (textOf ts) := by
  obtain ⟨t, m, hfind, ht, hm⟩ := h
  refine hts.stops (by decide) hfind ?_
  have htext : t.text = m := by
    simp only [Token.isPunct, Bool.and_eq_true, beq_iff_eq] at ht
    exact ht.2
  have hall : closingMarks.all (·.toList.head?.all (!extendsOperand ·)) := by decide
  rw [htext]
  exact stops_of_all (List.all_eq_true.mp hall m hm)

end Cursor

end RequestLang

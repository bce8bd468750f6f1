import RequestLang.Proofs.Document.Arithmetic
import RequestLang.Proofs.Document.Frame
import RequestLang.Proofs.Token.Lexeme
import RequestLang.Proofs.Token.Scan

/-! Tokens as the lexer makes them: what they look like and what stands behind them. -/
namespace RequestLang
open Lexer Lexeme

/-- The tokens of a text that has no carriage returns. -/
def Scanned (ts : List Token) : Prop := ∃ k cs, '\r' ∉ cs ∧ scan k cs = .ok ts

/-- The characters of tokens. -/
def textOf (ts : List Token) : List Char := chars (ts.map Token.lexeme)

@[simp] theorem textOf_nil : textOf [] = [] := rfl

@[simp] theorem textOf_cons (t : Token) (ts : List Token) : textOf (t :: ts) = t.text.toList ++ textOf ts := rfl

@[simp] theorem textOf_append (us ts : List Token) : textOf (us ++ ts) = textOf us ++ textOf ts := by
  simp [textOf]

theorem textOf_of_scan {k : Nat} {cs : List Char} {ts : List Token} (h : scan k cs = .ok ts) : textOf ts = cs := by
  rw [← flatMap_of_scan h, textOf, chars, List.flatMap_map]
  rfl

namespace Scanned

variable {t : Token} {us ts : List Token}

/-- The first token is cut off, or it is a stray character. -/
theorem cons (h : Scanned (t :: ts)) :
    (Cuts t.lexeme (textOf ts) ∨ Stray t.lexeme (textOf ts)) ∧ '\r' ∉ t.text.toList ∧ Scanned ts := by
  obtain ⟨k, cs, hcr, hscan⟩ := h
  obtain ⟨rest, -, rfl, hrest, hcut⟩ := scan_eq_cons hscan
  rw [List.mem_append, not_or] at hcr
  rw [textOf_of_scan hrest]
  exact ⟨hcut, hcr.1, _, rest, hcr.2, hrest⟩

theorem of_append (h : Scanned (us ++ ts)) : Scanned ts := by
  induction us with
  | nil => exact h
  | cons u us ih => exact ih h.cons.2.2

/-- A token that is no punctuation is cut off. -/
theorem cuts (h : Scanned (t :: ts)) (ht : t.kind ≠ .punctuation) : Cuts t.lexeme (textOf ts) :=
  h.cons.1.resolve_right fun hs => ht hs.1

theorem clean (h : Scanned ts) : ∀ t ∈ ts, '\r' ∉ t.text.toList := by
  induction ts with
  | nil => exact fun _ ht => absurd ht List.not_mem_nil
  | cons u us ih =>
    intro t ht
    rcases List.mem_cons.mp ht with rfl | ht
    · exact h.cons.2.1
    · exact ih h.cons.2.2 t ht

theorem nonempty (h : Scanned (t :: ts)) : t.text.toList ≠ [] := by
  rcases h.cons.1 with hcut | ⟨-, c, hc, -⟩
  · exact hcut.nonempty
  · intro hnil
    rw [show t.text.toList = [c] from hc] at hnil
    cases hnil

/-- What begins a token between two that mean something. -/
theorem head_of_isIgnorable (h : Scanned (t :: ts)) (ht : t.isIgnorable) :
    ∃ c cs, t.text.toList = c :: cs ∧ c ∈ [' ', '\t', '\n', '/', '#'] := by
  have hkind : (t.kind = .whitespace ∨ t.kind = .newline) ∨ t.kind = .comment := by
    simpa [Token.isIgnorable] using ht
  have hcut := h.cuts (by rcases hkind with (h | h) | h <;> simp [h])
  rcases hkind with (hk | hk) | hk
  · obtain ⟨hall, -⟩ := hcut.whitespace hk
    cases hcs : t.text.toList with
    | nil => exact absurd hcs hcut.nonempty
    | cons c cs =>
      have : isGap c := hall c (by simp [Token.lexeme, hcs])
      refine ⟨c, cs, rfl, ?_⟩
      simp only [isGap, Bool.or_eq_true, beq_iff_eq] at this
      rcases this with rfl | rfl <;> decide
  · have : t.text.toList = ['\n'] := hcut.newline hk h.cons.2.1
    exact ⟨'\n', [], this, by decide⟩
  · rcases hcut.comment hk with ⟨body, hb | hb, -⟩ | ⟨body, hb, -⟩
    · exact ⟨'/', _, hb, by decide⟩
    · exact ⟨'#', _, hb, by decide⟩
    · exact ⟨'/', _, hb, by decide⟩

/-- What may not stand directly behind a token, by the next one that means something. -/
theorem stops (h : Scanned ts) {p : Char → Bool} (hp : [' ', '\t', '\n', '/', '#'].any p = false)
    (ht : ts.find? (!·.isIgnorable) = some t) (hstop : Stops p t.text.toList) : Stops p (textOf ts) := by
  cases ts with
  | nil => cases ht
  | cons u us =>
    cases hu : u.isIgnorable with
    | true =>
      obtain ⟨c, cs, hcs, hc⟩ := h.head_of_isIgnorable hu
      rw [textOf_cons, hcs, List.cons_append, stops_cons]
      exact Bool.eq_false_iff.mpr (List.any_eq_false.mp hp c hc)
    | false =>
      obtain rfl : u = t := by simpa [List.find?_cons, hu] using ht
      have hne := h.nonempty
      cases hcs : u.text.toList with
      | nil => exact absurd hcs hne
      | cons c cs =>
        rw [hcs, stops_cons] at hstop
        rw [textOf_cons, hcs, List.cons_append, stops_cons]
        exact hstop

end Scanned

namespace Cursor

/-- The tokens on both sides are those of one text. -/
def Sound (c : Cursor) : Prop := Scanned c.all

theorem Sound.ahead {c : Cursor} (h : c.Sound) : Scanned c.ahead := Scanned.of_append h

theorem Sound.reaches {c c' : Cursor} (h : c.Sound) (hreach : c.Reaches c') : c'.Sound := by
  rw [Sound, hreach.all]
  exact h

theorem token?_eq_some {c : Cursor} {t : Token} (h : c.token? = some t) : ∃ ts, c.ahead = t :: ts :=
  List.head?_eq_some_iff.mp h

theorem skip_token? (c : Cursor) : c.skip.token? = c.ahead.find? (!·.isIgnorable) := by
  obtain ⟨b, ts, n⟩ := c
  induction ts generalizing b with
  | nil => rfl
  | cons t ts ih =>
    rw [skip_cons]
    cases ht : t.isIgnorable with
    | true => simp [ih, ht]
    | false => simp [ht]

end Cursor

end RequestLang

import RequestLang.Document.Outline
import RequestLang.Proofs.Token.Excerpt

/-! Spans of a request. Each is recorded where its part is read, so that the parts lie apart from
each other, and a header or query that is cut out of the text reads as before. -/
namespace RequestLang
open Lexer Lexeme Cursor

variable {s : String} {c c' : Cursor}

/-- What a string or a placeholder says; a placeholder keeps its braces. -/
def Token.said (t : Token) : String := if t.kind = .placeholder then t.text else t.literal.value

def Token.isInline (t : Token) : Bool := t.kind == .whitespace || t.isBlockComment

def Token.isText (t : Token) : Bool := t.isString || t.kind == .placeholder

/-- The tokens of a header and of a query. -/
inductive Clause.Spelled : ClauseKind → Clause → List Token → Prop
  | header {name colon value : Token} {gap gap' : List Token} {k v : String} (hname : name.isString)
    (hk : name.said = k) (hgap : ∀ t ∈ gap, t.isIgnorable) (hcolon : colon.isPunct ":")
    (hgap' : ∀ t ∈ gap', t.isInline) (hvalue : value.isText) (hv : value.said = v) :
    Spelled .header (.header k v) (name :: (gap ++ colon :: (gap' ++ [value])))
  | query {mark key equal value : Token} {gap gap' gap'' : List Token} {k v : String} (hmark : mark.isOp "?")
    (hgap : ∀ t ∈ gap, t.isInline) (hkey : key.isText) (hk : key.said = k) (hgap' : ∀ t ∈ gap', t.isInline)
    (hequal : equal.isOp "=" ∨ equal.isPunct ":") (hgap'' : ∀ t ∈ gap'', t.isInline) (hvalue : value.isText)
    (hv : value.said = v) :
    Spelled .query (.query k v) (mark :: (gap ++ key :: (gap' ++ equal :: (gap'' ++ [value]))))

theorem Token.said_of_isString {t : Token} (h : t.isString) : t.said = t.literal.value := by
  rw [said, if_neg]
  intro hkind
  simp [isString, hkind] at h

theorem Token.isInline_of_isText {t : Token} (h : t.isText) : t.isInline = false := by
  obtain ⟨kind, text, k⟩ := t
  cases kind <;> simp_all [Token.isText, Token.isInline, Token.isString, Token.isBlockComment]

theorem Token.isIgnorable_of_isText {t : Token} (h : t.isText) : t.isIgnorable = false := by
  obtain ⟨kind, text, k⟩ := t
  cases kind <;> simp_all [Token.isText, Token.isString, Token.isIgnorable]

theorem Cursor.textValue_cons (b ts : List Token) {t : Token} (n : Nat) (h : t.isText) (what : String) :
    (⟨b, t :: ts, n⟩ : Cursor).textValue what = .ok (t.said, ⟨t :: b, ts, n⟩) :=
  textValue_eq_ok.mpr ⟨t, rfl, by simpa [Token.isText] using h, rfl, rfl⟩

section
variable {b gap ts : List Token} {t : Token} {n : Nat}

theorem Cursor.skip_gap (hgap : ∀ u ∈ gap, u.isIgnorable) (ht : t.isIgnorable = false) :
    (⟨b, gap ++ t :: ts, n⟩ : Cursor).skip = ⟨gap.reverse ++ b, t :: ts, n⟩ :=
  skipWhile_gap _ _ _ _ hgap ht

theorem Cursor.skipInline_gap (hgap : ∀ u ∈ gap, u.isInline) (ht : t.isInline = false) :
    (⟨b, gap ++ t :: ts, n⟩ : Cursor).skipInline = ⟨gap.reverse ++ b, t :: ts, n⟩ :=
  skipWhile_gap _ _ _ _ hgap ht

theorem find?_gap (hgap : ∀ u ∈ gap, u.isIgnorable) (ht : t.isIgnorable = false) :
    (gap ++ t :: ts).find? (!·.isIgnorable) = some t := by
  rw [List.find?_append, List.find?_eq_none.mpr fun u hu => by simp [hgap u hu], Option.none_or, List.find?_cons,
    ht, Bool.not_false]

end

namespace Clause.Spelled
variable {kind : ClauseKind} {x : Clause} {run : List Token}

theorem isFirm_of_isText {t : Token} (h : t.isText) : t.lexeme.IsFirm := by
  obtain ⟨kind, text, k⟩ := t
  left
  cases kind <;> simp_all [Token.isText, Token.isString, Token.lexeme]

theorem isFirm_of_isIgnorable {t : Token} (h : t.isIgnorable) : t.lexeme.IsFirm := by
  obtain ⟨kind, text, k⟩ := t
  left
  cases kind <;> simp_all [Token.isIgnorable, Token.lexeme]

theorem isIgnorable_of_isInline {t : Token} (h : t.isInline) : t.isIgnorable := by
  obtain ⟨kind, text, k⟩ := t
  cases kind <;> simp_all [Token.isIgnorable, Token.isInline, Token.isBlockComment]

theorem firm (h : Spelled kind x run) : ∀ t ∈ run, t.lexeme.IsFirm := by
  have hpunct {t : Token} (h : t.isPunct ":") : t.lexeme.IsFirm := by
    simp only [Token.isPunct, Bool.and_eq_true, beq_iff_eq] at h
    exact .inr (by simp [Token.lexeme, mark, h])
  have hop {t : Token} {o : String} (ho : o ∈ ["=", "?"]) (h : t.isOp o) : t.lexeme.IsFirm := by
    simp only [Token.isOp, Bool.and_eq_true, beq_iff_eq] at h
    refine .inr ?_
    simp only [List.mem_cons, List.not_mem_nil, or_false] at ho
    rcases ho with rfl | rfl <;> simp [Token.lexeme, op, h]
  have hinline {gap : List Token} (hgap : ∀ t ∈ gap, t.isInline) : ∀ t ∈ gap, t.lexeme.IsFirm :=
    fun t ht => isFirm_of_isIgnorable (isIgnorable_of_isInline (hgap t ht))
  cases h with
  | header hname hk hgap hcolon hgap' hvalue hv =>
    simp only [List.forall_mem_cons, List.forall_mem_append, List.not_mem_nil, false_implies, implies_true, and_true]
    exact ⟨isFirm_of_isText (by simp [Token.isText, hname]), fun t ht => isFirm_of_isIgnorable (hgap t ht),
      hpunct hcolon, hinline hgap', isFirm_of_isText hvalue⟩
  | query hmark hgap hkey hk hgap' hequal hgap'' hvalue hv =>
    simp only [List.forall_mem_cons, List.forall_mem_append, List.not_mem_nil, false_implies, implies_true, and_true]
    exact ⟨hop (by decide) hmark, hinline hgap, isFirm_of_isText hkey, hinline hgap',
      hequal.elim (hop (by decide)) hpunct, hinline hgap'', isFirm_of_isText hvalue⟩

/-- Such tokens are read as a clause of their kind, whatever stands around them. -/
theorem read (h : Spelled kind x run) (b rest : List Token) (n : Nat) :
    ClauseKind.at? ⟨b, run ++ rest, n⟩ = some kind ∧
      Clause.read kind ⟨b, run ++ rest, n⟩ = .ok (x, ⟨run.reverse ++ b, rest, n⟩) := by
  cases h with
  | @header name colon value gap gap' k v hname hk hgap hcolon hgap' hvalue hv =>
    subst hk hv
    simp only [List.cons_append, List.append_assoc, List.nil_append]
    have hsolid : colon.isIgnorable = false := by
      simp only [Token.isPunct, Bool.and_eq_true, beq_iff_eq] at hcolon
      simp [Token.isIgnorable, hcolon.1]
    constructor
    · have hopens : (⟨b, name :: (gap ++ colon :: (gap' ++ value :: rest)), n⟩ : Cursor).opensHeader := by
        rw [opensHeader, nextSignificant?_cons, find?_gap hgap hsolid]
        exact hcolon
      have hkind : name.kind = .string ∨ name.kind = .tripleString := by simpa [Token.isString] using hname
      rcases hkind with hkind | hkind <;>
        simp [ClauseKind.at?, isCallOf, Token.isOp, Token.isString, hkind, hopens]
    · rw [Clause.read, readHeader, expect_cons _ _ _ _ hname, ok_bind, advance_cons, skip_gap hgap hsolid,
        advance_cons, skipInline_gap hgap' (Token.isInline_of_isText hvalue), textValue_cons _ _ _ hvalue]
      simp [Token.said_of_isString hname]
  | @query mark key equal value gap gap' gap'' k v hmark hgap hkey hk hgap' hequal hgap'' hvalue hv =>
    subst hk hv
    simp only [List.cons_append, List.append_assoc, List.nil_append]
    have hsolid : equal.isInline = false := by
      simp only [Token.isOp, Token.isPunct, Bool.and_eq_true, beq_iff_eq] at hequal
      rcases hequal with ⟨hkind, -⟩ | ⟨hkind, -⟩ <;> simp [Token.isInline, Token.isBlockComment, hkind]
    constructor
    · have hkind : mark.kind = .operator := by
        simp only [Token.isOp, Bool.and_eq_true, beq_iff_eq] at hmark
        exact hmark.1
      simp [ClauseKind.at?, isCallOf, hkind, hmark]
    · have hfits : (equal.isOp "=" || equal.isPunct ":") = true := by simpa using hequal
      rw [Clause.read, readQuery, advance_cons, skipInline_gap hgap (Token.isInline_of_isText hkey),
        textValue_cons _ _ _ hkey, ok_bind]
      dsimp only
      rw [skipInline_gap hgap' hsolid, expect_cons _ _ _ _ hfits, ok_bind, advance_cons,
        skipInline_gap hgap'' (Token.isInline_of_isText hvalue), textValue_cons _ _ _ hvalue]
      simp

/-- Moving the tokens changes nothing. -/
theorem lay (h : Spelled kind x run) (k : Nat) : Spelled kind x (Lexeme.lay k (run.map Token.lexeme)) := by
  have hmoved {p : Token → Bool} (hp : ∀ t u : Token, t.lexeme = u.lexeme → p t = p u) {gap : List Token}
      (h : ∀ t ∈ gap, p t) (k : Nat) : ∀ t ∈ Lexeme.lay k (gap.map Token.lexeme), p t := by
    intro t ht
    obtain ⟨u, hu, hsame⟩ := List.mem_map.mp (lexeme_mem_of_mem_lay ht)
    rw [hp t u hsame.symm]
    exact h u hu
  have hignorable (t u : Token) (h : t.lexeme = u.lexeme) : t.isIgnorable = u.isIgnorable := by
    simp only [Token.lexeme, Lexeme.mk.injEq] at h
    simp [Token.isIgnorable, h]
  have hinline (t u : Token) (h : t.lexeme = u.lexeme) : t.isInline = u.isInline := by
    simp only [Token.lexeme, Lexeme.mk.injEq] at h
    simp [Token.isInline, Token.isBlockComment, h]
  cases h with
  | header hname hk hgap hcolon hgap' hvalue hv =>
    simp only [List.map_cons, List.map_append, lay_cons, lay_append, List.map_nil, lay_nil]
    exact .header hname hk (hmoved hignorable hgap _) hcolon (hmoved hinline hgap' _) hvalue hv
  | query hmark hgap hkey hk hgap' hequal hgap'' hvalue hv =>
    simp only [List.map_cons, List.map_append, lay_cons, lay_append, List.map_nil, lay_nil]
    exact .query hmark (hmoved hinline hgap _) hkey hk (hmoved hinline hgap' _) hequal (hmoved hinline hgap'' _) hvalue hv

end Clause.Spelled

theorem Cursor.settled_eq_of_isText {t : Token} {b : List Token} (hbehind : c.behind = t :: b) (h : t.isText) :
    c.settled = c.behind.reverse := by
  rw [settled, hbehind, List.dropWhile_cons_of_neg (by simp [Token.isIgnorable_of_isText h])]

theorem Cursor.skipInline_eq_of_token? {t : Token} (h : c.skipInline.token? = some t) :
    ∃ gap ts, c.ahead = gap ++ t :: ts ∧ (∀ u ∈ gap, u.isInline) ∧
      c.skipInline = ⟨gap.reverse ++ c.behind, t :: ts, c.size⟩ := by
  obtain ⟨gap, ts, hahead, hgap, -, hskip⟩ := skipWhile_eq_of_token? _ h
  exact ⟨gap, ts, hahead, hgap, hskip⟩

/-- The token of a value, and the gap that was skipped before it. -/
theorem Cursor.skipInline_textValue_eq_ok {what v : String} (h : c.skipInline.textValue what = .ok (v, c')) :
    ∃ gap t ts, c.ahead = gap ++ t :: ts ∧ (∀ u ∈ gap, u.isInline) ∧ t.isText ∧ t.said = v ∧
      c' = ⟨t :: (gap.reverse ++ c.behind), ts, c.size⟩ := by
  obtain ⟨t, ht, htext, rfl, rfl⟩ := textValue_eq_ok.mp h
  obtain ⟨gap, ts, hahead, hgap, hskip⟩ := skipInline_eq_of_token? ht
  refine ⟨gap, t, ts, hahead, hgap, by simpa [Token.isText] using htext, rfl, ?_⟩
  rw [hskip, advance_cons]

namespace Clause

theorem spelled_header {x : Clause} (hopens : c.opensHeader) (h : read .header c = .ok (x, c')) :
    ∃ run, Spelled .header x run ∧ c.ahead = run ++ c'.ahead ∧ c'.settled = c.behind.reverse ++ run := by
  obtain ⟨name, hname, h⟩ := bind_eq_ok.mp h
  obtain ⟨⟨v, c₁⟩, hv, h⟩ := bind_eq_ok.mp h
  obtain ⟨rfl, rfl⟩ := Prod.mk.inj (Except.ok.inj h)
  obtain ⟨ht, hstring⟩ := expect_eq_ok.mp hname
  obtain ⟨b, as, n⟩ := c
  obtain ⟨ts, rfl⟩ := token?_eq_some ht
  rw [opensHeader, nextSignificant?_cons] at hopens
  cases hfind : ts.find? (!·.isIgnorable) with
  | none => simp [hfind] at hopens
  | some colon =>
    have hcolon : colon.isPunct ":" := by simpa [hfind] using hopens
    rw [advance_cons] at hv
    have hskip : (⟨name :: b, ts, n⟩ : Cursor).skip.token? = some colon := by rw [skip_token?, hfind]
    obtain ⟨gap, ts', rfl, hgap, -, hskip⟩ := skipWhile_eq_of_token? _ hskip
    rw [skip, hskip, advance_cons] at hv
    obtain ⟨gap', value, rest, rfl, hgap', hvalue, hsaid, rfl⟩ := skipInline_textValue_eq_ok hv
    refine ⟨_, .header hstring (Token.said_of_isString hstring) hgap hcolon hgap' hvalue hsaid, by simp, ?_⟩
    rw [settled_eq_of_isText rfl hvalue]
    simp

theorem spelled_query {x : Clause} (hmark : (c.token?.map (·.isOp "?")).getD false)
    (h : read .query c = .ok (x, c')) :
    ∃ run, Spelled .query x run ∧ c.ahead = run ++ c'.ahead ∧ c'.settled = c.behind.reverse ++ run := by
  obtain ⟨⟨k, c₁⟩, hk, h⟩ := bind_eq_ok.mp h
  obtain ⟨equal, hequal, h⟩ := bind_eq_ok.mp h
  obtain ⟨⟨v, c₂⟩, hv, h⟩ := bind_eq_ok.mp h
  obtain ⟨rfl, rfl⟩ := Prod.mk.inj (Except.ok.inj h)
  obtain ⟨ht, hfits⟩ := expect_eq_ok.mp hequal
  obtain ⟨b, as, n⟩ := c
  cases as with
  | nil => simp at hmark
  | cons mark ts =>
    have hmark : mark.isOp "?" := by simpa using hmark
    rw [advance_cons] at hk
    obtain ⟨gap, key, ts', rfl, hgap, hkey, hsaid, rfl⟩ := skipInline_textValue_eq_ok hk
    obtain ⟨gap', ts'', rfl, hgap', hskip⟩ := skipInline_eq_of_token? ht
    rw [hskip, advance_cons] at hv
    obtain ⟨gap'', value, rest, rfl, hgap'', hvalue, hsaid', rfl⟩ := skipInline_textValue_eq_ok hv
    refine ⟨_, .query hmark hgap hkey hsaid hgap' (by simpa using hfits) hgap'' hvalue hsaid', by simp, ?_⟩
    rw [settled_eq_of_isText rfl hvalue]
    simp

end Clause

/-- A text that is read as one clause and nothing else. -/
def Clause.Reads (kind : ClauseKind) (x : Clause) (text : String) : Prop :=
  ∃ tokens c, tokenize text = .ok tokens ∧ ClauseKind.at? (.ofTokens text tokens) = some kind ∧
    Clause.read kind (.ofTokens text tokens) = .ok (x, c) ∧ c.atEnd

theorem Clause.Spelled.reads {kind : ClauseKind} {x : Clause} {run after : List Token} (h : Spelled kind x run)
    (hrun : Scanned (run ++ after)) : Clause.Reads kind x (String.ofList (textOf run)) := by
  have hscan : tokenize (String.ofList (textOf run)) = .ok (Lexeme.lay 0 (run.map Token.lexeme)) := by
    rw [tokenize, String.toList_ofList]
    exact scan_excerpt hrun h.firm
  obtain ⟨hat, hread⟩ := (h.lay 0).read [] [] (Text.byteSize (textOf run))
  have hstart : ofTokens (String.ofList (textOf run)) (Lexeme.lay 0 (run.map Token.lexeme)) =
      ⟨[], Lexeme.lay 0 (run.map Token.lexeme) ++ [], Text.byteSize (textOf run)⟩ := by
    rw [ofTokens, String.toList_ofList, List.append_nil]
  exact ⟨_, _, hscan, hstart ▸ hat, hstart ▸ hread, rfl⟩

theorem Clause.reads_spanTo {kind : ClauseKind} {x : Clause} {run : List Token} (h : Spelled kind x run)
    (hc : c.Over s) (hreach : c.Reaches c') (hahead : c.ahead = run ++ c'.ahead)
    (hsettled : c'.settled = c.behind.reverse ++ run) : Clause.Reads kind x ((c.spanTo c').textIn s) := by
  rw [hc.textIn_spanTo (hc.reaches hreach) hsettled]
  exact h.reads (hahead ▸ hc.sound.ahead)

/-- At a span stands one token, a string or a placeholder, that says a value. -/
def Span.Says (text value : String) (span : Span) : Prop :=
  ∃ t : Token, t.IsOf text ∧ t.isText ∧ span = t.span ∧ span.textIn text = t.text ∧ t.said = value

theorem Cursor.says_of_textValue {what v : String} (hc : c.Over s) (h : c.textValue what = .ok (v, c')) :
    c.Marks c' ∧ (c.spanTo c').Says s v := by
  obtain ⟨t, ht, hkind, rfl, rfl⟩ := textValue_eq_ok.mp h
  have htext : t.isText := by simpa [Token.isText] using hkind
  obtain ⟨ts, hts⟩ := token?_eq_some ht
  have hadvance : c.advance = ⟨t :: c.behind, ts, c.size⟩ := by rw [advance, hts]
  have hsolid : t.isIgnorable = false := Token.isIgnorable_of_isText htext
  have hsettled : c.advance.settled = c.behind.reverse ++ [t] := by
    rw [settled_eq_of_isText (t := t) (by rw [hadvance]) htext, hadvance, List.reverse_cons]
  have hspan : c.spanTo c.advance = t.span := by
    rw [spanTo, offset, ht, lastEnd, hadvance, List.find?_cons, hsolid]
    rfl
  refine ⟨⟨⟨t, ht, hsolid⟩, .refl _⟩, t, ⟨c.all, hc.tokens, ?_⟩, htext, hspan, ?_, rfl⟩
  · rw [all, hts]
    exact List.mem_append_right _ List.mem_cons_self
  · rw [hc.textIn_spanTo (hc.reaches c.reaches_advance) hsettled, textOf_cons, textOf_nil, List.append_nil,
      String.ofList_toList]

/-- One span ends before the other starts. -/
def Span.Apart (p q : Span) : Prop := p.stop ≤ q.start ∨ q.stop ≤ p.start

/-- Spans recorded by the time that a cursor is reached, none of them before `low`. -/
structure Recorded (s : String) (low : Nat) (c : Cursor) (spans : List Span) : Prop where
  reached : low ≤ c.offset
  fits : ∀ span ∈ spans, span.Fits s ∧ low ≤ span.start ∧ span.stop ≤ c.lastEnd
  apart : spans.Pairwise Span.Apart

namespace Recorded
variable {low : Nat} {spans spans' : List Span}

theorem reaches (h : Recorded s low c spans) (hc : c.Over s) (hreach : c.Reaches c') : Recorded s low c' spans := by
  refine ⟨h.reached.trans (hreach.offset_le hc), fun span hspan => ?_, h.apart⟩
  obtain ⟨hfits, hlow, hstop⟩ := h.fits span hspan
  exact ⟨hfits, hlow, hstop.trans (hreach.lastEnd_le hc)⟩

/-- What is recorded next lies behind all that was recorded before. -/
theorem mark (h : Recorded s low c spans) (hc : c.Over s) (hmark : c.Marks c') :
    Recorded s low c' (c.spanTo c' :: spans) := by
  have hnext := h.reaches hc (c.reaches_advance.trans hmark.reaches)
  refine ⟨hnext.reached, List.forall_mem_cons.mpr ⟨⟨hmark.fits hc, h.reached, Nat.le_refl _⟩, hnext.fits⟩, ?_⟩
  refine List.pairwise_cons.mpr ⟨fun span hspan => .inr ?_, h.apart⟩
  exact (h.fits span hspan).2.2.trans hc.lastEnd_le_offset

theorem subperm (h : Recorded s low c spans) (hsub : spans'.Subperm spans) : Recorded s low c spans' := by
  refine ⟨h.reached, fun span hspan => h.fits span (hsub.subset hspan), ?_⟩
  obtain ⟨l, hperm, hl⟩ := hsub
  exact (hperm.pairwise_iff Or.symm).mp (h.apart.sublist hl)

end Recorded

end RequestLang

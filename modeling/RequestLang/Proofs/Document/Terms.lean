import RequestLang.Proofs.Document.Exact.Term
import RequestLang.Proofs.Document.Quiet
import RequestLang.Proofs.Document.RoundTrip

/-! The terms of a document, printed into other texts. A term is read back there if no slash in it opens a comment,
and one can open only if it ends in the text behind the term. -/
namespace RequestLang
open Lexer Lexeme Cursor
variable {c c' : Cursor}

def PayloadTerm.terms : PayloadTerm → List JsonTerm
  | .form term => [term]
  | .json term => [term]
  | _ => []

def VariableBody.terms : VariableBody → List JsonTerm
  | .value term => [term]
  | _ => []

def Request.terms (r : Request) : List JsonTerm := r.payload.toList.flatMap PayloadTerm.terms

/-- The values of variables, and the terms that are payloads. -/
def Document.terms (d : Document) : List JsonTerm := d.vars.flatMap (·.body.terms) ++ d.requests.flatMap Request.terms

/-- A term that was read from a text, before a mark that closes terms. -/
def JsonTerm.Occurs (x : JsonTerm) : Prop :=
  ∃ c c' : Cursor, c.Sound ∧ JsonTerm.read c = .ok (x, c') ∧ Closes c'.ahead

namespace PayloadTerm

theorem occurs_readBody {call : String} {p : PayloadTerm} (hc : c.Sound) (h : readBody call c = .ok (p, c'))
    (hclose : Closes c'.ahead) : ∀ x ∈ p.terms, x.Occurs := by
  have hterm {make : JsonTerm → PayloadTerm} (hmake : ∀ x, (make x).terms = [x])
      (h : ∃ x, JsonTerm.read c = .ok (x, c') ∧ p = make x) : ∀ x ∈ p.terms, x.Occurs := by
    obtain ⟨x, hread, rfl⟩ := h
    simpa [hmake] using ⟨c, c', hc, hread, hclose⟩
  have hraw (h : readRaw c = .ok (p, c')) : ∀ x ∈ p.terms, x.Occurs := by
    simp only [readRaw] at h
    split at h
    · simp at h
    · obtain ⟨⟨mime, c₁⟩, -, h⟩ := bind_eq_ok.mp h
      obtain ⟨rfl, rfl⟩ := Prod.mk.inj (Except.ok.inj h)
      exact fun _ hx => absurd hx List.not_mem_nil
  simp only [readBody] at h
  split at h
  · exact hterm (fun _ => rfl) (making_eq_ok.mp h)
  · exact hterm (fun _ => rfl) (making_eq_ok.mp h)
  · split at h
    · exact hterm (fun _ => rfl) (making_eq_ok.mp h)
    · exact hraw h
  · exact hraw h
  · obtain ⟨⟨path, c₁⟩, -, h⟩ := bind_eq_ok.mp h
    obtain ⟨⟨mime, c₂⟩, -, h⟩ := bind_eq_ok.mp h
    obtain ⟨rfl, rfl⟩ := Prod.mk.inj (Except.ok.inj h)
    exact fun _ hx => absurd hx List.not_mem_nil
  · obtain ⟨⟨parts, c₁⟩, -, h⟩ := bind_eq_ok.mp h
    obtain ⟨rfl, rfl⟩ := Prod.mk.inj (Except.ok.inj h)
    exact fun _ hx => absurd hx List.not_mem_nil

theorem occurs_read {p : PayloadTerm} (hc : c.Sound) (h : read c = .ok (p, c')) : ∀ x ∈ p.terms, x.Occurs := by
  obtain ⟨call, -, h⟩ := bind_eq_ok.mp h
  split at h
  · obtain ⟨⟨path, c₁⟩, -, h⟩ := bind_eq_ok.mp h
    obtain ⟨⟨mime, c₂⟩, -, h⟩ := bind_eq_ok.mp h
    obtain ⟨rfl, rfl⟩ := Prod.mk.inj (Except.ok.inj h)
    exact fun _ hx => absurd hx List.not_mem_nil
  · obtain ⟨c₁, h₁, h⟩ := bind_eq_ok.mp h
    obtain ⟨⟨p, c₂⟩, h₂, h⟩ := bind_eq_ok.mp h
    obtain ⟨c₃, h₃, h⟩ := bind_eq_ok.mp h
    obtain ⟨rfl, rfl⟩ := Prod.mk.inj (Except.ok.inj h)
    have hbody : c₁.skip.Sound := hc.reaches (reaches_expectPunct h₁).of_skip.of_advance.skip
    exact occurs_readBody hbody h₂ (closes_of_isPunct (expectPunct_eq_ok.mp h₃).1 (by decide))

end PayloadTerm

namespace Clause

/-- Of the clauses only a payload brings terms. -/
theorem occurs_read {kind : ClauseKind} {p : PayloadTerm} (hc : c.Sound) (h : read kind c = .ok (.payload p, c')) :
    ∀ x ∈ p.terms, x.Occurs := by
  obtain rfl := eq_payload_of_read h
  obtain ⟨⟨q, c₁⟩, h₁, h⟩ := bind_eq_ok.mp h
  cases h
  exact PayloadTerm.occurs_read hc h₁

end Clause

namespace Request

theorem occurs_add {r : Request} {x : Clause} (hr : ∀ t ∈ r.terms, t.Occurs)
    (hx : ∀ p, x = .payload p → ∀ t ∈ p.terms, t.Occurs) (span : Span) : ∀ t ∈ (r.add x span).terms, t.Occurs := by
  cases x with
  | payload p => simpa [terms, add] using hx p rfl
  | auth | certificate | query | header | output | script => exact hr

theorem occurs_readClauses {n : Nat} {r r' : Request} (hr : ∀ x ∈ r.terms, x.Occurs) (hc : c.Sound)
    (h : readClauses n r c = .ok (r', c')) : ∀ x ∈ r'.terms, x.Occurs := by
  induction n generalizing r c with
  | zero =>
    obtain ⟨rfl, rfl⟩ := Prod.mk.inj (Except.ok.inj h)
    exact hr
  | succ n ih =>
    have hskip : c.skip.Sound := hc.reaches c.reaches_skip
    have hclause {kind : ClauseKind} {x : Clause} {c₁ : Cursor} (h₁ : Clause.read kind c.skip = .ok (x, c₁)) :
        ∀ span, ∀ t ∈ (r.add x span).terms, t.Occurs := by
      refine occurs_add hr ?_
      rintro p rfl
      exact Clause.occurs_read hskip h₁
    obtain ⟨-, rfl, -⟩ | ⟨kind, x, c₁, -, -, h₁, ⟨-, rfl, -⟩ | ⟨-, h⟩⟩ := readClauses_eq_ok h
    · exact hr
    · exact hclause h₁ _
    · exact ih (hclause h₁ _) (hskip.reaches (Clause.reaches_read h₁).of_advance) h

theorem payload_readTags {n : Nat} {r r' : Request} (h : readTags n r c = .ok (r', c')) : r'.payload = r.payload := by
  induction n generalizing r c with
  | zero =>
    obtain ⟨rfl, rfl⟩ := Prod.mk.inj (Except.ok.inj h)
    rfl
  | succ n ih =>
    simp only [readTags] at h
    split at h
    · split at h
      · obtain ⟨⟨r₁, c₁⟩, h₁, h⟩ := bind_eq_ok.mp h
        refine (ih h).trans ?_
        obtain ⟨-, h₁⟩ | ⟨-, flags, rfl⟩ | ⟨value, -, -, rfl⟩ := readTag_eq_ok h₁
        · obtain ⟨name, base, c₂, -, -, -, -, rfl⟩ := readName_eq_ok h₁
          rfl
        · rfl
        · rfl
      · obtain ⟨rfl, rfl⟩ := Prod.mk.inj (Except.ok.inj h)
        rfl
    · obtain ⟨rfl, rfl⟩ := Prod.mk.inj (Except.ok.inj h)
      rfl

theorem occurs_read {source : Option String} {r : Request} (hc : c.Sound) (h : read source c = .ok (r, c')) :
    ∀ x ∈ r.terms, x.Occurs := by
  obtain ⟨r₁, r₂, r₃, c₁, c₂, h₁, h₂, h₃, rfl⟩ := read_eq_ok h
  have hnone : r₁.terms = [] := by rw [terms, payload_readTags h₁]; rfl
  have hc₁ : c₁.Sound := hc.reaches (reaches_readTags h₁)
  obtain ⟨method, url, c₃, hreach, -, rfl, rfl⟩ := readTarget_eq_ok h₂
  have hclauses : ∀ x ∈ r₃.terms, x.Occurs := by
    refine occurs_readClauses (fun x hx => ?_) (hc₁.reaches hreach.advance) h₃
    exact absurd hx (List.eq_nil_iff_forall_not_mem.mp hnone x)
  exact hclauses

end Request

theorem VariableBody.occurs_read {b : VariableBody} (hc : c.Sound) (h : read c = .ok (b, c')) (hclose : Closes c'.ahead) :
    ∀ x ∈ b.terms, x.Occurs := by
  obtain ⟨t, -, ⟨-, -, args, -, rfl⟩ | ⟨u, -, -, rfl, -⟩ | ⟨term, hterm, rfl⟩⟩ := read_eq_ok h
  · exact fun _ hx => absurd hx List.not_mem_nil
  · exact fun _ hx => absurd hx List.not_mem_nil
  · simpa [terms] using ⟨c, c', hc, hterm, hclose⟩

theorem Variable.occurs_read {v : Variable} (hc : c.Sound) (h : Variable.read c = .ok (v, c')) :
    ∀ x ∈ v.body.terms, x.Occurs := by
  obtain ⟨t, c₁, -, -, -, -, -, hbody, hclose, -⟩ := Variable.read_eq_ok h
  have hstart := hc.reaches (c.reaches_advance.skip.advance.skip.advance.skip)
  exact VariableBody.occurs_read hstart hbody (closes_of_isPunct hclose (by decide))

namespace Document

theorem occurs_readWithin {source : Option String} {n : Nat} {d d' : Document} (hd : ∀ x ∈ d.terms, x.Occurs)
    (hc : c.Sound) (h : readWithin source n d c = .ok d') : ∀ x ∈ d'.terms, x.Occurs := by
  induction n generalizing d c with
  | zero =>
    cases h
    exact hd
  | succ n ih =>
    have hskip : c.skip.Sound := hc.reaches c.reaches_skip
    simp only [readWithin] at h
    split at h
    · split at h
      · obtain ⟨⟨i, c₁⟩, h₁, h⟩ := bind_eq_ok.mp h
        exact ih (by exact hd) (hskip.reaches (Import.reaches_read h₁).1.of_advance) h
      split at h
      · obtain ⟨⟨v, c₁⟩, h₁, h⟩ := bind_eq_ok.mp h
        have hv := Variable.occurs_read hskip h₁
        refine ih (fun x hx => ?_) (hskip.reaches (Variable.reaches_read h₁).1.of_advance) h
        obtain hx | hx | hx : (∃ v ∈ d.vars, x ∈ v.body.terms) ∨ x ∈ v.body.terms ∨ ∃ r ∈ d.requests, x ∈ r.terms := by
          simpa [terms, or_and_right, exists_or, or_assoc] using hx
        · exact hd x (by simp [terms, hx])
        · exact hv x hx
        · exact hd x (by simp [terms, hx])
      split at h
      · obtain ⟨⟨r, c₁⟩, h₁, h⟩ := bind_eq_ok.mp h
        have hr := Request.occurs_read hskip h₁
        refine ih (fun x hx => ?_) (hskip.reaches (Request.reaches_read h₁)) h
        obtain hx | hx | hx : (∃ v ∈ d.vars, x ∈ v.body.terms) ∨ (∃ r ∈ d.requests, x ∈ r.terms) ∨ x ∈ r.terms := by
          simpa [terms, or_and_right, exists_or] using hx
        · exact hd x (by simp [terms, hx])
        · exact hd x (by simp [terms, hx])
        · exact hr x hx
      · simp at h
    · cases h
      exact hd

theorem occurs_parse {text : String} {source : Option String} {d : Document} (h : parse text source = .ok d) :
    ∀ x ∈ d.terms, x.Occurs := by
  obtain ⟨tokens, htokens, hread⟩ := parse_eq_ok h
  have hscan : Scanned tokens := ⟨0, _, Text.not_mem_normalizeLineEndings text, htokens⟩
  exact occurs_readWithin (c := Cursor.ofTokens _ tokens) (by simp [terms]) hscan hread

end Document

namespace JsonTerm

/-- The printed term is taken off before the tokens of another text and read back from what was taken off, but for
its quotes, and reading stops right behind it. -/
def ReadsBack (x : JsonTerm) (depth k : Nat) (rest : List Char) (ts : List Token) : Prop :=
  ∃ us, scan k ((x.written depth).toList ++ rest) = .ok (us ++ ts) ∧ textOf us = (x.written depth).toList ∧
    ∀ before n, ∃ x' before', read ⟨before, us ++ ts, n⟩ = .ok (x', ⟨before', ts, n⟩) ∧ x'.plain = x.plain

/-- A mark that closes terms is the first token of the text behind a term. -/
theorem ends_of_scan {k : Nat} {m : Char} (hm : m ∈ [')', ';', ',']) {rest : List Char} {ts : List Token}
    (h : scan k (m :: rest) = .ok ts) : Ends ts := by
  have hmark {s : String} (hs : s ∈ [")", ";", ","]) (h : scan k (s.toList ++ rest) = .ok ts) : Ends ts := by
    have hcut : Cuts (mark s) rest := cuts_mark (by fin_cases hs <;> decide) rest
    obtain ⟨us, -, rfl⟩ := map_eq_ok.mp ((scan_cuts hcut k).symm.trans h)
    exact ends_mark (s := s) (by simp [Token.isPunct, mark]) (by fin_cases hs <;> decide) us
  fin_cases hm
  · exact hmark (s := ")") (by decide) h
  · exact hmark (s := ";") (by decide) h
  · exact hmark (s := ",") (by decide) h

theorem readsBack_iff {x : JsonTerm} (hx : x.Legible) {depth k : Nat} {m : Char} (hm : m ∈ [')', ';', ','])
    {rest : List Char} {ts : List Token} (hts : scan (k + Text.byteSize (x.written depth).toList) (m :: rest) = .ok ts) :
    x.ReadsBack depth k (m :: rest) ts ↔ Calm (x.lexemes depth) (m :: rest) := by
  have hclosed : Closed (m :: rest) := by
    rw [closed_cons]
    fin_cases hm <;> rfl
  have hends := ends_of_scan hm hts
  constructor
  · rintro ⟨us, hscan, -, hread⟩
    obtain ⟨x', before', hread, hplain⟩ := hread [] 0
    exact calm_of_read hx hclosed (by rwa [chars_lexemes]) hread hplain
  · intro hcalm
    have hfalls := (solid_lexemes depth x hx).falls (m :: rest) hclosed hcalm
    have hspells := spells_lay k (x.lexemes depth)
    refine ⟨lay k (x.lexemes depth), ?_, ?_, fun before n => read_lexemes hx hspells hends before n⟩
    · rw [← chars_lexemes] at hts ⊢
      rw [scan_falls hfalls, hts]
      rfl
    · rw [textOf, hspells, chars_lexemes]

/-- Where a term was read, no comment ended that one of its slashes could open. -/
theorem Occurs.calm {x : JsonTerm} (hx : x.Occurs) (depth : Nat) {m : Char} (hm : m ∈ [')', ';', ','])
    {rest : List Char} (hrest : Quiet rest) : Calm (x.lexemes depth) (m :: rest) := by
  obtain ⟨c, c', hc, hread, hclose⟩ := hx
  have hne : m ∉ ['*', '/'] := by fin_cases hm <;> decide
  refine (tame_read hc hread hclose depth).calm _ (fun d hd => ?_) fun _ => Quiet.cons_iff.mpr ⟨hrest, fun hends => ?_⟩
  · cases hd
    exact hne
  · exact hne (by simp [hends.1])

end JsonTerm

namespace Document

/-- A term of a document that was read, printed before a mark that closes terms in any text, is read back as it was
exactly if no slash in it opens a comment there. That holds wherever no comment ends behind the mark. -/
theorem readsBack_term {text : String} {source : Option String} {d : Document} (h : parse text source = .ok d)
    {x : JsonTerm} (hx : x ∈ d.terms) (depth k : Nat) {m : Char} (hm : m ∈ [')', ';', ',']) {rest : List Char}
    {ts : List Token} (hts : scan (k + Text.byteSize (x.written depth).toList) (m :: rest) = .ok ts) :
    (x.ReadsBack depth k (m :: rest) ts ↔ Calm (x.lexemes depth) (m :: rest)) ∧
      (Quiet rest → x.ReadsBack depth k (m :: rest) ts) := by
  have hoccurs := occurs_parse h x hx
  have hlegible : x.Legible := by
    obtain ⟨c, c', hc, hread, hclose⟩ := hoccurs
    exact JsonTerm.legible_read hc hread hclose
  have hback := JsonTerm.readsBack_iff hlegible hm hts
  exact ⟨hback, fun hrest => hback.mpr (hoccurs.calm depth hm hrest)⟩

/-- The slash and the asterisk of `6 /* 2` are two operators until a comment ends behind them. -/
theorem readsBack_term_division : ∃ d, parse "var a = 6 /* 2;" none = .ok d ∧ ∃ x ∈ d.terms,
    x.ReadsBack 0 0 [';'] [⟨.punctuation, ";", 6⟩] ∧
    ¬x.ReadsBack 0 0 [';', '*', '/'] [⟨.punctuation, ";", 6⟩, ⟨.operator, "*", 7⟩, ⟨.operator, "/", 8⟩] := by
  obtain ⟨d, hparse, hd⟩ : ∃ d, parse "var a = 6 /* 2;" none = .ok d ∧
      (d.terms.any fun x => x.written 0 == "6 /* 2" && !decide (Calm (x.lexemes 0) [';', '*', '/'])) = true :=
    exists_ok_of_map (by decide +kernel)
  obtain ⟨x, hx, hd⟩ := List.any_eq_true.mp hd
  simp only [Bool.and_eq_true, beq_iff_eq, Bool.not_eq_true', decide_eq_false_iff_not] at hd
  obtain ⟨hwritten, hnot⟩ := hd
  have hmark : scan (0 + Text.byteSize (x.written 0).toList) [';'] = .ok [⟨.punctuation, ";", 6⟩] := by
    rw [hwritten]
    cbv
  have hends : scan (0 + Text.byteSize (x.written 0).toList) [';', '*', '/'] =
      .ok [⟨.punctuation, ";", 6⟩, ⟨.operator, "*", 7⟩, ⟨.operator, "/", 8⟩] := by
    rw [hwritten]
    cbv
  have hback := (readsBack_term hparse hx 0 0 (by decide) hmark).2 rfl
  have hlost := (readsBack_term hparse hx 0 0 (by decide) hends).1
  exact ⟨d, hparse, x, hx, hback, fun hread => hnot (hlost.mp hread)⟩

end Document
end RequestLang

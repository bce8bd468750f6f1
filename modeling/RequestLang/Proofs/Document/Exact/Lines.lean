import RequestLang.Proofs.Document.Exact.Term
import RequestLang.Proofs.Document.Printable

/-! A comment that opens inside a payload shows in the request that is read. -/
namespace RequestLang
open Lexer Lexeme

namespace PayloadTerm

/-- What stands behind the opening parenthesis. -/
def inner (p : PayloadTerm) : List Lexeme := p.lexemes.drop 2

theorem lexemes_eq_call (p : PayloadTerm) : p.lexemes = [word p.callName, mark "("] ++ p.inner := by
  cases p <;> rfl

theorem callName_mem (p : PayloadTerm) : p.callName ∈ calls := by
  cases p <;> simp [callName, calls]

theorem falls_head (p : PayloadTerm) (rest : List Char) : Falls [word p.callName, mark "("] rest := by
  have hname : ∀ name ∈ calls, isHeaded Text.isNameChar name.toList ∧ name.toList ∉ keywords := by decide
  obtain ⟨hheaded, hkey⟩ := hname _ p.callName_mem
  exact ⟨cuts_word hheaded hkey ((stops_cons ..).mpr (by decide)), cuts_mark (by decide) _, trivial⟩

/-- The tokens of a text that begins with a payload begin with those of its call. -/
theorem scan_call (p : PayloadTerm) {k : Nat} {rest : List Char} {ts : List Token}
    (h : scan k (chars p.lexemes ++ rest) = .ok ts) :
    ∃ i j k' us, ts = ⟨.identifier, p.callName, i⟩ :: ⟨.punctuation, "(", j⟩ :: us ∧
      scan k' (chars p.inner ++ rest) = .ok us := by
  rw [p.lexemes_eq_call, chars_append, List.append_assoc] at h
  obtain ⟨_, us, rfl, hcall, hinner⟩ := scan_split (p.falls_head _) h
  simp only [spells_cons, spells_nil] at hcall
  obtain ⟨i, _, rfl, j, _, rfl, rfl⟩ := hcall
  exact ⟨i, j, _, us, rfl, hinner⟩

/-- What is read behind the opening parenthesis. -/
theorem readBody_of_read {name : String} {i j n : Nat} {b us : List Token} {p : PayloadTerm} {c : Cursor}
    (h : read ⟨b, ⟨.identifier, name, i⟩ :: ⟨.punctuation, "(", j⟩ :: us, n⟩ = .ok (p, c)) :
    ∃ c₁, readBody name (⟨⟨.punctuation, "(", j⟩ :: ⟨.identifier, name, i⟩ :: b, us, n⟩ : Cursor).skip = .ok (p, c₁) := by
  have hop : (⟨.identifier, name, i⟩ : Token).isOp "<" = false := rfl
  rw [read, Cursor.expect_cons _ _ _ _ (by rfl)] at h
  simp only [ok_bind, hop, Bool.false_eq_true, if_false, Cursor.advance_cons] at h
  rw [Cursor.skip_of_not (by rfl), Cursor.expectPunct_cons _ _ _ _ (by rfl), ok_bind] at h
  obtain ⟨⟨q, c₁⟩, hbody, h⟩ := bind_eq_ok.mp h
  obtain ⟨c₂, -, h⟩ := bind_eq_ok.mp h
  obtain ⟨rfl, rfl⟩ := Prod.mk.inj (Except.ok.inj h)
  exact ⟨c₁, hbody⟩

/-- A term begins where its text does. -/
theorem skip_of_scan {t : JsonTerm} (h : t.Legible) {depth k : Nat} {rest : List Char}
    (hclean : '\r' ∉ chars (t.lexemes depth) ++ rest) {us : List Token}
    (hscan : scan k (chars (t.lexemes depth) ++ rest) = .ok us) (b : List Token) (n : Nat) :
    (⟨b, us, n⟩ : Cursor).skip = ⟨b, us, n⟩ := by
  obtain ⟨c, cs, hc, hgap⟩ := (t.solid_lexemes depth h).opens
  cases us with
  | nil => rfl
  | cons u us =>
    refine Cursor.skip_of_not (Bool.eq_false_iff.mpr fun hu => ?_) ..
    obtain ⟨d, ds, hd, hmem⟩ := Scanned.head_of_isIgnorable ⟨k, _, hclean, hscan⟩ hu
    have htext := textOf_of_scan hscan
    rw [textOf_cons, hd, hc] at htext
    obtain rfl := (List.cons.inj htext).1
    rw [separates, List.contains_iff_mem.mpr hmem] at hgap
    cases hgap

/-- Where a payload is read as it is, no comment opens inside it. -/
theorem calm_of_read {p : PayloadTerm} (h : p.Legible) {k : Nat} {rest : List Char}
    (hclean : '\r' ∉ chars p.lexemes ++ rest) {ts : List Token} (hscan : scan k (chars p.lexemes ++ rest) = .ok ts)
    {b : List Token} {n : Nat} {q : PayloadTerm} {c : Cursor} (hread : read ⟨b, ts, n⟩ = .ok (q, c))
    (hq : q.plain = p.plain) : Calm p.lexemes rest := by
  obtain ⟨i, j, k', us, rfl, hinner⟩ := p.scan_call hscan
  obtain ⟨c₁, hbody⟩ := readBody_of_read hread
  rw [p.lexemes_eq_call, chars_append, List.append_assoc, List.mem_append, not_or] at hclean
  have hterm {t : JsonTerm} (ht : t.Legible) (hp : p.inner = t.lexemes 0 ++ [mark ")"])
      (hbody : ∃ x c₂, JsonTerm.read (⟨⟨.punctuation, "(", j⟩ :: ⟨.identifier, p.callName, i⟩ :: b, us, n⟩ : Cursor).skip =
        .ok (x, c₂) ∧ x.plain = t.plain) : Calm p.lexemes rest := by
    obtain ⟨x, c₂, hx, hplain⟩ := hbody
    have hclean := hclean.2
    rw [hp, chars_append, List.append_assoc] at hinner hclean
    rw [skip_of_scan ht hclean hinner] at hx
    have hcalm := JsonTerm.calm_of_read ht ((closed_cons ..).mpr rfl) hinner hx hplain
    rw [p.lexemes_eq_call, hp, calm_append, calm_append]
    refine ⟨calm_of_not_mem ?_ _, hcalm, calm_of_not_mem (by decide) rest⟩
    simp [word, mark, op]
  cases p with
  | json t =>
    obtain ⟨x, hx, rfl⟩ := making_eq_ok.mp hbody
    exact hterm h rfl ⟨x, c₁, hx, json.inj hq⟩
  | form t =>
    obtain ⟨x, hx, rfl⟩ := making_eq_ok.mp hbody
    exact hterm h rfl ⟨x, c₁, hx, form.inj hq⟩
  | raw | file | multipart =>
    refine calm_of_not_mem (slash_not_mem fun t ht => ?_) rest
    rcases ht with ht | ht <;> cases ht

end PayloadTerm

namespace Request

/-- A payload stays, since there is one at most. -/
theorem payload_of_readClauses {n : Nat} {r r' : Request} {c c' : Cursor} {p : PayloadTerm} (hp : r.payload = some p)
    (h : readClauses n r c = .ok (r', c')) : r'.payload = some p := by
  induction n generalizing r c with
  | zero =>
    obtain ⟨rfl, rfl⟩ := Prod.mk.inj (Except.ok.inj h)
    exact hp
  | succ n ih =>
    have hadd {kind : ClauseKind} {x : Clause} {c₁ : Cursor} (hfree : r.repeated? kind = none)
        (hread : Clause.read kind c.skip = .ok (x, c₁)) (s : Span) : (r.add x s).payload = some p := by
      cases x with
      | payload q =>
        obtain rfl := Clause.eq_payload_of_read hread
        rw [repeated?, hp] at hfree
        cases hfree
      | auth | certificate | query | header | output | script => exact hp
    obtain ⟨-, rfl, -⟩ | ⟨kind, x, c₁, -, hfree, hread, ⟨-, rfl, -⟩ | ⟨-, h⟩⟩ := readClauses_eq_ok h
    · exact hp
    · exact hadd hfree hread _
    · exact ih (hadd hfree hread _) h

end Request

namespace Layout
open Request

/-- What stands as a payload behind the lines of a request is read as the payload of the request. -/
theorem read_payload {l : Layout} (h : l.Readable) (hscript : ∀ x ∈ l.clauses, x.kind ≠ .script) {source : Option String}
    {us ts : List Token} (hus : Spells us l.front) {b : List Token} {n : Nat}
    (hts : ∀ b, (⟨b, ts, n⟩ : Cursor).skip = ⟨b, ts, n⟩ ∧ ClauseKind.at? ⟨b, ts, n⟩ = some .payload) {c c' : Cursor}
    (hc : c = ⟨b, us ++ ts, n⟩) {r q : Request} (hr : l.request c.leadingComments? source = .ok r)
    (hread : Request.read source c = .ok (q, c')) :
    ∃ b' p c₁, PayloadTerm.read ⟨b', ts, n⟩ = .ok (p, c₁) ∧ q.payload = some p := by
  obtain ⟨hs, vs, cs, k, hhs, hvs, hcs, hlines⟩ := spells_front hus ts
  rw [hlines] at hc
  have hclauses := length_le_lines hcs
  rw [List.length_map] at hclauses
  obtain ⟨r₁, b₁, hstart, hr₁⟩ := read_start h source hhs hvs b _ k n hc
  rw [request, ← hr₁] at hr
  obtain ⟨m, hm⟩ : ∃ m, (cs ++ ts).length + 2 = m + 1 + l.clauses.length :=
    ⟨(cs ++ ts).length + 1 - l.clauses.length, by rw [List.length_append]; omega⟩
  obtain ⟨r₂, b₂, hfront, -⟩ := readClauses_front l.clauses h.clauses hscript hr hcs m b₁ ts n
  rw [hstart, hm, hfront] at hread
  obtain ⟨⟨r₃, c₃⟩, hclause, heq⟩ := map_eq_ok.mp hread
  obtain ⟨hskip, hat⟩ := hts b₂
  rw [← hskip] at hat
  obtain ⟨hnone, -⟩ | ⟨kind, x, c₁, hkind, -, hx, hrest⟩ := readClauses_eq_ok hclause
  · rw [hat] at hnone
    cases hnone
  rw [hat] at hkind
  obtain rfl := Option.some.inj hkind
  obtain ⟨⟨p, c₁⟩, hpayload, hx⟩ := bind_eq_ok.mp hx
  cases hx
  obtain ⟨hkind, -⟩ | ⟨-, hrest⟩ := hrest
  · cases hkind
  have hp : r₃.payload = some p := payload_of_readClauses (r := r₂.add (.payload p) _) rfl hrest
  rw [hskip] at hpayload
  exact ⟨b₂, p, c₁, hpayload, by rw [← hp, ← (Prod.mk.inj heq).1]⟩

end Layout

namespace Document

/-- Requests are added behind those that are there. -/
theorem requests_of_readWithin {source : Option String} {n : Nat} {d d' : Document} {c : Cursor}
    (h : readWithin source n d c = .ok d') : d.requests <+: d'.requests := by
  induction n generalizing d c with
  | zero =>
    cases h
    exact List.prefix_refl _
  | succ n ih =>
    simp only [readWithin] at h
    split at h
    · split at h
      · obtain ⟨⟨i, c₁⟩, -, h⟩ := bind_eq_ok.mp h
        exact (ih h :)
      split at h
      · obtain ⟨⟨v, c₁⟩, -, h⟩ := bind_eq_ok.mp h
        exact (ih h :)
      split at h
      · obtain ⟨⟨r, c₁⟩, -, h⟩ := bind_eq_ok.mp h
        exact (List.prefix_append _ _).trans (ih h)
      · simp at h
    · cases h
      exact List.prefix_refl _

/-- A file that begins with a request has it as its first one. -/
theorem read_of_readWithin {source : Option String} {n : Nat} {d : Document} {c : Cursor} {t : Token}
    (ht : c.skip.token? = some t) (hkind : t.kind ≠ .keyword) (h : readWithin source (n + 1) {} c = .ok d) :
    ∃ r c₁, Request.read source c.skip = .ok (r, c₁) ∧ d.requests.head? = some r := by
  have hkey (s : String) : c.skip.isKeyword s = false := by
    simp [Cursor.isKeyword, ht, Token.isKeyword, hkind]
  simp only [readWithin, ht, hkey, Bool.false_eq_true, if_false] at h
  split at h
  · obtain ⟨⟨r, c₁⟩, hread, h⟩ := bind_eq_ok.mp h
    obtain ⟨rs, hrs⟩ := requests_of_readWithin h
    exact ⟨r, c₁, hread, by rw [← hrs]; rfl⟩
  · simp at h

end Document
end RequestLang
